import GitCore.Lib.Wire
import Mathlib.Data.List.GetD

/-!
# Base 85

`encode_85` and `decode_85` of `base85.c`: every four bytes are one 32-bit word, which is written in five
characters. A buffer is the list of the bytes from its pointer on, and `none` stands for a read behind them.
-/

namespace GitCore.Base85

def en85 : List UInt8 :=
  ("0123456789ABCDEFGHIJKLMNOPQRSTUVWXYZabcdefghijklmnopqrstuvwxyz!#$%&()*+-;<=>?@^_\x60\x7b|\x7d~").toList.map
    fun c => UInt8.ofNat c.toNat

def prepBase85 (de85 : UInt8 → Nat) : UInt8 → Nat :=
  if de85 90 ≠ 0 then de85
  else (List.range en85.length).foldl (fun de85 i => Function.update de85 (en85.getD i 0) (i + 1)) de85

def de85 : UInt8 → Nat :=
  prepBase85 fun _ => 0

/-- `de = de85[ch]` and `--de < 0` -/
def digit (ch : UInt8) : Option UInt32 :=
  if de85 ch = 0 then none else some (UInt32.ofNat (de85 ch - 1))

inductive Failure
  | alphabet (ch : UInt8)
  | sequence (chars : List UInt8)
deriving DecidableEq

/-- The first `cnt` digits of a group: the accumulator and what is left of the buffer. -/
def accumulate : Nat → UInt32 → List UInt8 → Option (Except Failure (UInt32 × List UInt8))
  | 0, acc, buffer => some (.ok (acc, buffer))
  | _ + 1, _, [] => none
  | cnt + 1, acc, ch :: buffer =>
    match digit ch with
    | none => some (.error (.alphabet ch))
    | some de => accumulate cnt (acc * 85 + de) buffer

def decodeGroup (buffer : List UInt8) : Option (Except Failure (UInt32 × List UInt8)) :=
  match accumulate 4 0 buffer with
  | some (.ok (_, [])) => none
  | some (.ok (acc, ch :: rest)) =>
    match digit ch with
    | none => some (.error (.alphabet ch))
    | some de =>
      if 0xffffffff / 85 < acc ∨ 0xffffffff - de < acc * 85 then some (.error (.sequence (buffer.take 5)))
      else some (.ok (acc * 85 + de, rest))
  | result => result

/-- `cnt` times a rotation by a byte, and the lowest byte. -/
def emit : Nat → UInt32 → List UInt8
  | 0, _ => []
  | cnt + 1, acc =>
    let acc := (acc <<< 8) ||| (acc >>> 24)
    acc.toUInt8 :: emit cnt acc

def decode85 (buffer : List UInt8) (len : Nat) : Option (Except Failure (List UInt8)) :=
  if len = 0 then some (.ok [])
  else
    match decodeGroup buffer with
    | none => none
    | some (.error failure) => some (.error failure)
    | some (.ok (acc, buffer)) =>
      let cnt := if len < 4 then len else 4
      (decode85 buffer (len - cnt)).map fun result => result.map (emit cnt acc ++ ·)
termination_by len
decreasing_by grind

/-- `for (cnt = 24; cnt >= 0; cnt -= 8)` with the shifts that are left, until the last byte is taken. -/
def gather : List UInt32 → UInt32 → List UInt8 → UInt32 × List UInt8
  | cnt :: shifts, acc, ch :: data =>
    let acc := acc ||| (ch.toUInt32 <<< cnt)
    if data = [] then (acc, data) else gather shifts acc data
  | _, acc, data => (acc, data)

/-- `for (cnt = 4; cnt >= 0; cnt--)` from the last character of a group on. -/
def writeDigits : Nat → UInt32 → List UInt8 → List UInt8
  | 0, _, buf => buf
  | cnt + 1, acc, buf => writeDigits cnt (acc / 85) (en85.getD (acc % 85).toNat 0 :: buf)

lemma length_gather (shifts : List UInt32) (acc : UInt32) (data : List UInt8) :
    (gather shifts acc data).2.length ≤ data.length := by
  induction shifts generalizing acc data with
  | nil => simp [gather]
  | cons cnt shifts ih =>
    cases data with
    | nil => simp [gather]
    | cons ch data =>
      rw [gather]
      split
      · simp
      · exact (ih _ data).trans (by simp)

def encode85 (data : List UInt8) : List UInt8 :=
  match data with
  | [] => [0]
  | ch :: data =>
    let group := gather [24, 16, 8, 0] 0 (ch :: data)
    writeDigits 5 group.1 [] ++ encode85 group.2
termination_by data.length
decreasing_by
  have := length_gather [16, 8, 0] ((0 : UInt32) ||| (ch.toUInt32 <<< 24)) data
  simp only [gather]
  split <;> simp_all

end GitCore.Base85

/-!
# The base 85 codec

What a group of five characters stands for is said with the positions of the characters in the alphabet. A
decoder that returns has read groups whose value is below `2 ^ 32`, and an encoder writes such groups.
-/

namespace GitCore.Base85

def baseValue (chars : List UInt8) : Nat :=
  chars.foldl (fun value ch => value * 85 + en85.idxOf ch) 0

structure IsWord (chars : List UInt8) : Prop where
  length : chars.length = 5
  alphabet : ∀ ch ∈ chars, ch ∈ en85

structure IsGroup (chars : List UInt8) : Prop extends IsWord chars where
  value : baseValue chars < 2 ^ 32

lemma length_en85 : en85.length = 85 := by decide

lemma nodup_en85 : en85.Nodup := by decide

lemma idxOf_en85 {i : Nat} (hi : i < 85) : en85.idxOf (en85.getD i 0) = i := by
  have hlen : i < en85.length := by rw [length_en85]; exact hi
  rw [List.getD_eq_getElem _ _ hlen]
  exact nodup_en85.idxOf_getElem i hlen

lemma getD_mem_en85 {i : Nat} (hi : i < 85) : en85.getD i 0 ∈ en85 := by
  have hlen : i < en85.length := by rw [length_en85]; exact hi
  rw [List.getD_eq_getElem _ _ hlen]
  exact List.getElem_mem hlen

lemma idxOf_lt {ch : UInt8} (h : ch ∈ en85) : en85.idxOf ch < 85 := by
  have := List.idxOf_lt_length_of_mem h
  rwa [length_en85] at this

lemma prepBase85_loop (n : Nat) (hn : n ≤ 85) (ch : UInt8) :
    (List.range n).foldl (fun de85 i => Function.update de85 (en85.getD i 0) (i + 1)) (fun _ => 0) ch =
      if en85.idxOf ch < n then en85.idxOf ch + 1 else 0 := by
  induction n with
  | zero => simp
  | succ n ih =>
    rw [List.range_succ, List.foldl_append, List.foldl_cons, List.foldl_nil, Function.update_apply, ih (by omega)]
    by_cases hch : ch = en85.getD n 0
    · rw [if_pos hch, hch, idxOf_en85 (by omega), if_pos (by omega)]
    · have hne : en85.idxOf ch ≠ n := by
        intro hidx
        have hlt : en85.idxOf ch < en85.length := by rw [length_en85]; omega
        apply hch
        rw [← hidx, List.getD_eq_getElem _ _ hlt, List.getElem_idxOf hlt]
      rw [if_neg hch]
      grind

lemma de85_eq (ch : UInt8) : de85 ch = if ch ∈ en85 then en85.idxOf ch + 1 else 0 := by
  rw [de85, prepBase85, if_neg (by simp), length_en85, prepBase85_loop 85 le_rfl, ← length_en85]
  simp only [List.idxOf_lt_length_iff]

lemma digit_of_mem {ch : UInt8} (h : ch ∈ en85) : digit ch = some (UInt32.ofNat (en85.idxOf ch)) := by
  rw [digit, de85_eq, if_pos h]
  simp

lemma digit_of_not_mem {ch : UInt8} (h : ch ∉ en85) : digit ch = none := by
  rw [digit, de85_eq, if_neg h]
  simp

lemma baseValue_append (chars : List UInt8) (ch : UInt8) :
    baseValue (chars ++ [ch]) = baseValue chars * 85 + en85.idxOf ch := by
  simp [baseValue]

lemma baseValue_lt {chars : List UInt8} (h : ∀ ch ∈ chars, ch ∈ en85) : baseValue chars < 85 ^ chars.length := by
  induction chars using List.reverseRecOn with
  | nil => simp [baseValue]
  | append_singleton chars ch ih =>
    have hch := idxOf_lt (h ch (by simp))
    have hchars := ih fun c hc => h c (by simp [hc])
    rw [baseValue_append, List.length_append, List.length_singleton, pow_succ]
    omega

lemma accumulate_ok (chars rest : List UInt8) (acc : UInt32) (h : ∀ ch ∈ chars, ch ∈ en85) :
    accumulate chars.length acc (chars ++ rest) =
      some (.ok (chars.foldl (fun acc ch => acc * 85 + UInt32.ofNat (en85.idxOf ch)) acc, rest)) := by
  induction chars generalizing acc with
  | nil => rfl
  | cons ch chars ih =>
    rw [List.length_cons, List.cons_append, accumulate, digit_of_mem (h ch (by simp))]
    exact ih _ fun c hc => h c (by simp [hc])

lemma foldl_acc (chars : List UInt8) :
    chars.foldl (fun acc ch => acc * 85 + UInt32.ofNat (en85.idxOf ch)) 0 = UInt32.ofNat (baseValue chars) := by
  induction chars using List.reverseRecOn with
  | nil => rfl
  | append_singleton chars ch ih =>
    rw [List.foldl_append, List.foldl_cons, List.foldl_nil, ih, baseValue_append, UInt32.ofNat_add, UInt32.ofNat_mul]
    rfl

lemma accumulate_inv {cnt : Nat} {acc acc' : UInt32} {buffer rest : List UInt8}
    (h : accumulate cnt acc buffer = some (.ok (acc', rest))) :
    ∃ chars, chars.length = cnt ∧ (∀ ch ∈ chars, ch ∈ en85) ∧ buffer = chars ++ rest := by
  induction cnt generalizing acc buffer with
  | zero =>
    simp only [accumulate, Option.some.injEq, Except.ok.injEq, Prod.mk.injEq] at h
    exact ⟨[], rfl, by simp, h.2⟩
  | succ cnt ih =>
    cases buffer with
    | nil => simp [accumulate] at h
    | cons ch buffer =>
      by_cases hch : ch ∈ en85
      · rw [accumulate, digit_of_mem hch] at h
        obtain ⟨chars, hlen, hchars, rfl⟩ := ih h
        exact ⟨ch :: chars, by simp [hlen], by simpa [hch] using hchars, rfl⟩
      · simp [accumulate, digit_of_not_mem hch] at h

lemma overflow_iff {acc de : UInt32} (hde : de.toNat < 85) :
    (0xffffffff / 85 < acc ∨ 0xffffffff - de < acc * 85) ↔ 2 ^ 32 ≤ acc.toNat * 85 + de.toNat := by
  have hacc := acc.toNat_lt
  have hsub : ((0xffffffff : UInt32) - de).toNat = 0xffffffff - de.toNat :=
    UInt32.toNat_sub_of_le _ _ (by rw [UInt32.le_iff_toNat_le]; exact Nat.le_of_lt_succ de.toNat_lt)
  rw [UInt32.lt_iff_toNat_lt, UInt32.lt_iff_toNat_lt, hsub, UInt32.toNat_mul]
  have hdiv : ((0xffffffff : UInt32) / 85).toNat = 50529027 := by decide
  have h85 : (85 : UInt32).toNat = 85 := rfl
  rw [hdiv, h85]
  omega

lemma decodeGroup_word {chars : List UInt8} (h : IsWord chars) (rest : List UInt8) :
    decodeGroup (chars ++ rest) = some (if baseValue chars < 2 ^ 32 then .ok (UInt32.ofNat (baseValue chars), rest)
      else .error (.sequence chars)) := by
  obtain ⟨front, ch, rfl⟩ : ∃ front ch, chars = front ++ [ch] := by
    obtain rfl | ⟨front, ch, rfl⟩ := List.eq_nil_or_concat chars
    · simpa using h.length
    · exact ⟨front, ch, List.concat_eq_append⟩
  have hfront : front.length = 4 := by simpa using h.length
  have hmem : ∀ c ∈ front, c ∈ en85 := fun c hc => h.alphabet c (by simp [hc])
  have hch : ch ∈ en85 := h.alphabet ch (by simp)
  have hacc := accumulate_ok front (ch :: rest) 0 hmem
  rw [hfront, foldl_acc] at hacc
  have hvalue : baseValue front < 2 ^ 32 := by
    have := baseValue_lt hmem
    rw [hfront] at this
    omega
  have hidx := idxOf_lt hch
  have htoNat : (UInt32.ofNat (baseValue front)).toNat = baseValue front := by
    rw [UInt32.toNat_ofNat', Nat.mod_eq_of_lt hvalue]
  have hde : (UInt32.ofNat (en85.idxOf ch)).toNat = en85.idxOf ch := by
    rw [UInt32.toNat_ofNat', Nat.mod_eq_of_lt (by omega)]
  have htake : (front ++ [ch] ++ rest).take 5 = front ++ [ch] := by
    rw [List.take_append_of_le_length h.length.ge, List.take_of_length_le h.length.le]
  rw [decodeGroup, htake, List.append_assoc, List.singleton_append, hacc]
  have htest := @overflow_iff (UInt32.ofNat (baseValue front)) _ (by rw [hde]; exact hidx)
  rw [htoNat, hde, ← baseValue_append] at htest
  simp only [digit_of_mem hch]
  by_cases hlt : baseValue (front ++ [ch]) < 2 ^ 32
  · rw [if_neg (htest.not.mpr (by omega)), if_pos hlt, baseValue_append, UInt32.ofNat_add, UInt32.ofNat_mul]
    rfl
  · rw [if_pos (htest.mpr (by omega)), if_neg hlt]

lemma decodeGroup_inv {buffer rest : List UInt8} {acc : UInt32} (h : decodeGroup buffer = some (.ok (acc, rest))) :
    ∃ chars, IsGroup chars ∧ buffer = chars ++ rest ∧ acc = UInt32.ofNat (baseValue chars) := by
  obtain ⟨chars, hword, rest', rfl⟩ : ∃ chars, IsWord chars ∧ ∃ rest', buffer = chars ++ rest' := by
    rw [decodeGroup] at h
    split at h
    · cases h
    · rename_i acc' ch rest' hacc
      obtain ⟨front, hlen, hfront, rfl⟩ := accumulate_inv hacc
      by_cases hch : ch ∈ en85
      · refine ⟨front ++ [ch], ⟨by simp [hlen], ?_⟩, rest', by simp⟩
        intro c hc
        rcases List.mem_append.mp hc with hc | hc
        · exact hfront c hc
        · rw [List.mem_singleton.mp hc]
          exact hch
      · simp [digit_of_not_mem hch] at h
    · rename_i result hnil hcons
      cases rest with
      | nil => exact absurd h (hnil _)
      | cons ch rest => exact absurd h (hcons _ _ _)
  rw [decodeGroup_word hword] at h
  by_cases hvalue : baseValue chars < 2 ^ 32
  · rw [if_pos hvalue] at h
    simp only [Option.some.injEq, Except.ok.injEq, Prod.mk.injEq] at h
    exact ⟨chars, ⟨hword, hvalue⟩, by rw [h.2], h.1.symm⟩
  · rw [if_neg hvalue] at h
    simp at h

lemma putBe32_bytes {acc : UInt32} (a b c d : UInt8)
    (h : acc.toNat = a.toNat * 2 ^ 24 + b.toNat * 2 ^ 16 + c.toNat * 2 ^ 8 + d.toNat) :
    putBe32 acc = [a, b, c, d] := by
  have ha := a.toNat_lt
  have hb := b.toNat_lt
  have hc := c.toNat_lt
  have hd := d.toNat_lt
  simp only [putBe32, List.cons.injEq, and_true, ← UInt8.toNat_inj, UInt8.toNat_ofNat', h]
  clear h
  exact ⟨by omega, by omega, by omega, by omega⟩

lemma toNat_rotate (acc : UInt32) :
    ((acc <<< 8) ||| (acc >>> 24)).toNat = 2 ^ 8 * (acc.toNat % 2 ^ 24) + acc.toNat / 2 ^ 24 := by
  have hacc := acc.toNat_lt
  have hleft : (acc <<< 8).toNat = 2 ^ 8 * (acc.toNat % 2 ^ 24) := by
    rw [UInt32.toNat_shiftLeft, Nat.shiftLeft_eq]
    have : (8 : UInt32).toNat % 32 = 8 := rfl
    rw [this]
    omega
  have hright : (acc >>> 24).toNat = acc.toNat / 2 ^ 24 := by
    rw [UInt32.toNat_shiftRight, Nat.shiftRight_eq_div_pow]
    rfl
  rw [UInt32.toNat_or, hleft, hright, ← Nat.two_pow_add_eq_or_of_lt (by omega)]

lemma toNat_rotate_bytes {acc : UInt32} {a b c d : Nat} (hb : b < 256) (hc : c < 256) (hd : d < 256)
    (h : acc.toNat = a * 2 ^ 24 + b * 2 ^ 16 + c * 2 ^ 8 + d) :
    ((acc <<< 8) ||| (acc >>> 24)).toNat = b * 2 ^ 24 + c * 2 ^ 16 + d * 2 ^ 8 + a := by
  rw [toNat_rotate, h]
  omega

lemma emit_four (acc : UInt32) : emit 4 acc = putBe32 acc := by
  have hacc := acc.toNat_lt
  obtain ⟨a, b, c, d, h⟩ : ∃ a b c d : UInt8, acc.toNat = a.toNat * 2 ^ 24 + b.toNat * 2 ^ 16 + c.toNat * 2 ^ 8 + d.toNat := by
    refine ⟨UInt8.ofNat (acc.toNat / 2 ^ 24), UInt8.ofNat (acc.toNat / 2 ^ 16), UInt8.ofNat (acc.toNat / 2 ^ 8),
      UInt8.ofNat acc.toNat, ?_⟩
    simp only [UInt8.toNat_ofNat']
    omega
  have ha := a.toNat_lt
  have hb := b.toNat_lt
  have hc := c.toNat_lt
  have hd := d.toNat_lt
  have h₁ := toNat_rotate_bytes hb hc hd h
  have h₂ := toNat_rotate_bytes hc hd ha h₁
  have h₃ := toNat_rotate_bytes hd ha hb h₂
  have h₄ := toNat_rotate_bytes ha hb hc h₃
  simp only [emit, putBe32_bytes a b c d h, List.cons.injEq, and_true, ← UInt8.toNat_inj, UInt32.toNat_toUInt8, h₁, h₂,
    h₃, h₄]
  omega

lemma emit_le (cnt : Nat) (hcnt : cnt ≤ 4) (acc : UInt32) : emit cnt acc = (putBe32 acc).take cnt := by
  have htake : ∀ n m acc, (emit (n + m) acc).take n = emit n acc := by
    intro n m
    induction n with
    | zero => intro acc; simp [emit]
    | succ n ih =>
      intro acc
      rw [Nat.add_right_comm, emit, List.take_succ_cons, ih, emit]
  rw [← emit_four, ← htake cnt (4 - cnt), Nat.add_sub_cancel' hcnt]

lemma toNat_or_shift {acc shift : UInt32} (ch : UInt8) {s : Nat} (hs : shift.toNat = s) (hle : s ≤ 24)
    (hacc : 2 ^ (s + 8) ∣ acc.toNat) :
    (acc ||| (ch.toUInt32 <<< shift)).toNat = acc.toNat + ch.toNat * 2 ^ s := by
  obtain ⟨q, hq⟩ := hacc
  have hch := ch.toNat_lt
  have hpow : 2 ^ (s + 8) = 2 ^ 8 * 2 ^ s := by rw [pow_add, Nat.mul_comm]
  have hlt : ch.toNat * 2 ^ s < 2 ^ (s + 8) := by
    rw [hpow]
    exact Nat.mul_lt_mul_of_pos_right hch (by positivity)
  have hword : 2 ^ (s + 8) ≤ 2 ^ 32 := Nat.pow_le_pow_right (by norm_num) (by omega)
  have hshift : (ch.toUInt32 <<< shift).toNat = ch.toNat * 2 ^ s := by
    rw [UInt32.toNat_shiftLeft, Nat.shiftLeft_eq, hs, Nat.mod_eq_of_lt (by omega : s < 32), UInt8.toNat_toUInt32,
      Nat.mod_eq_of_lt (by omega)]
  rw [UInt32.toNat_or, hshift, hq, Nat.two_pow_add_eq_or_of_lt hlt]

lemma gather_eq {data : List UInt8} (hdata : data ≠ []) :
    (gather [24, 16, 8, 0] 0 data).2 = data.drop 4 ∧
      (putBe32 (gather [24, 16, 8, 0] 0 data).1).take (min data.length 4) = data.take 4 := by
  have h₁ (a : UInt8) : ((0 : UInt32) ||| (a.toUInt32 <<< 24)).toNat = a.toNat * 2 ^ 24 := by
    rw [@toNat_or_shift 0 24 a 24 rfl le_rfl (by simp), UInt32.toNat_zero, Nat.zero_add]
  have h₂ (a b : UInt8) : ((0 : UInt32) ||| (a.toUInt32 <<< 24) ||| (b.toUInt32 <<< 16)).toNat =
      a.toNat * 2 ^ 24 + b.toNat * 2 ^ 16 := by
    rw [@toNat_or_shift _ 16 b 16 rfl (by norm_num) (by rw [h₁]; omega), h₁]
  have h₃ (a b c : UInt8) :
      ((0 : UInt32) ||| (a.toUInt32 <<< 24) ||| (b.toUInt32 <<< 16) ||| (c.toUInt32 <<< 8)).toNat =
        a.toNat * 2 ^ 24 + b.toNat * 2 ^ 16 + c.toNat * 2 ^ 8 := by
    rw [@toNat_or_shift _ 8 c 8 rfl (by norm_num) (by rw [h₂]; omega), h₂]
  have h₄ (a b c d : UInt8) :
      ((0 : UInt32) ||| (a.toUInt32 <<< 24) ||| (b.toUInt32 <<< 16) ||| (c.toUInt32 <<< 8) ||| (d.toUInt32 <<< 0)).toNat =
        a.toNat * 2 ^ 24 + b.toNat * 2 ^ 16 + c.toNat * 2 ^ 8 + d.toNat := by
    rw [@toNat_or_shift _ 0 d 0 rfl (by norm_num) (by rw [h₃]; omega), h₃, pow_zero, Nat.mul_one]
  match data with
  | [] => exact absurd rfl hdata
  | [a] =>
    refine ⟨rfl, ?_⟩
    rw [gather, if_pos rfl, putBe32_bytes a 0 0 0 (by rw [h₁]; simp)]
    rfl
  | [a, b] =>
    refine ⟨rfl, ?_⟩
    rw [gather, if_neg (by simp), gather, if_pos rfl, putBe32_bytes a b 0 0 (by rw [h₂]; simp)]
    rfl
  | [a, b, c] =>
    refine ⟨rfl, ?_⟩
    rw [gather, if_neg (by simp), gather, if_neg (by simp), gather, if_pos rfl,
      putBe32_bytes a b c 0 (by rw [h₃]; simp)]
    rfl
  | a :: b :: c :: d :: data =>
    have hgather : gather [24, 16, 8, 0] 0 (a :: b :: c :: d :: data) =
        ((0 : UInt32) ||| (a.toUInt32 <<< 24) ||| (b.toUInt32 <<< 16) ||| (c.toUInt32 <<< 8) ||| (d.toUInt32 <<< 0),
          data) := by
      rw [gather, if_neg (by simp), gather, if_neg (by simp), gather, if_neg (by simp), gather]
      split <;> rfl
    rw [hgather, putBe32_bytes a b c d (h₄ a b c d)]
    simp

lemma writeDigits_eq (cnt : Nat) (acc : UInt32) (buf : List UInt8) :
    ∃ chars, writeDigits cnt acc buf = chars ++ buf ∧ chars.length = cnt ∧ (∀ ch ∈ chars, ch ∈ en85) ∧
      baseValue chars = acc.toNat % 85 ^ cnt := by
  induction cnt generalizing acc buf with
  | zero => exact ⟨[], rfl, rfl, by simp, by simp [baseValue, Nat.mod_one]⟩
  | succ cnt ih =>
    obtain ⟨chars, hwrite, hlen, hmem, hvalue⟩ := ih (acc / 85) (en85.getD (acc % 85).toNat 0 :: buf)
    have hmod : (acc % 85).toNat = acc.toNat % 85 := UInt32.toNat_mod ..
    have hlt : (acc % 85).toNat < 85 := by omega
    refine ⟨chars ++ [en85.getD (acc % 85).toNat 0], ?_, by simp [hlen], ?_, ?_⟩
    · rw [writeDigits, hwrite, List.append_assoc, List.singleton_append]
    · intro ch hch
      rcases List.mem_append.mp hch with hch | hch
      · exact hmem ch hch
      · rw [List.mem_singleton.mp hch]
        exact getD_mem_en85 hlt
    · have hdiv : (acc / 85).toNat = acc.toNat / 85 := UInt32.toNat_div ..
      rw [baseValue_append, hvalue, idxOf_en85 hlt, hmod, hdiv, pow_succ, Nat.mul_comm (85 ^ cnt), Nat.mod_mul]
      omega

lemma writeDigits_group (acc : UInt32) :
    ∃ chars, writeDigits 5 acc [] = chars ∧ IsGroup chars ∧ UInt32.ofNat (baseValue chars) = acc := by
  obtain ⟨chars, hwrite, hlen, hmem, hvalue⟩ := writeDigits_eq 5 acc []
  have hacc := acc.toNat_lt
  rw [Nat.mod_eq_of_lt (by omega)] at hvalue
  exact ⟨chars, by rw [hwrite, List.append_nil], ⟨⟨hlen, hmem⟩, by omega⟩, by rw [hvalue, UInt32.ofNat_toNat]⟩

def words (groups : List (List UInt8)) : List UInt8 :=
  groups.flatMap fun chars => putBe32 (UInt32.ofNat (baseValue chars))

lemma words_cons (chars : List UInt8) (groups : List (List UInt8)) :
    words (chars :: groups) = putBe32 (UInt32.ofNat (baseValue chars)) ++ words groups := rfl

lemma decode85_group {chars : List UInt8} (h : IsGroup chars) (rest : List UInt8) {len : Nat} (hlen : 0 < len) :
    decode85 (chars ++ rest) len = (decode85 rest (len - 4)).map fun result =>
      result.map ((putBe32 (UInt32.ofNat (baseValue chars))).take len ++ ·) := by
  rw [decode85, if_neg (by omega), decodeGroup_word h.toIsWord, if_pos h.value]
  dsimp only
  by_cases hshort : len < 4
  · rw [if_pos hshort, emit_le len (by omega), Nat.sub_self, Nat.sub_eq_zero_of_le (by omega)]
  · rw [if_neg hshort, emit_four, List.take_of_length_le (by rw [length_putBe32]; omega)]

lemma take_words (chars : List UInt8) (groups : List (List UInt8)) (len : Nat) :
    (words (chars :: groups)).take len =
      (putBe32 (UInt32.ofNat (baseValue chars))).take len ++ (words groups).take (len - 4) := by
  rw [words_cons, List.take_append, length_putBe32]

lemma decode85_inv {buffer bytes : List UInt8} {len : Nat} (h : decode85 buffer len = some (.ok bytes)) :
    ∃ groups : List (List UInt8), groups.length = (len + 3) / 4 ∧ (∀ chars ∈ groups, IsGroup chars) ∧
      groups.flatten <+: buffer ∧ bytes = (words groups).take len := by
  induction len using Nat.strongRecOn generalizing buffer bytes with
  | ind len ih =>
    by_cases hlen : len = 0
    · rw [hlen, decode85, if_pos rfl] at h
      simp only [Option.some.injEq, Except.ok.injEq] at h
      exact ⟨[], by simp [hlen], by simp, by simp, by simp [← h, hlen]⟩
    · obtain ⟨acc, rest, hgroup⟩ : ∃ acc rest, decodeGroup buffer = some (.ok (acc, rest)) := by
        rw [decode85, if_neg hlen] at h
        split at h
        · simp at h
        · simp at h
        · rename_i hgroup
          exact ⟨_, _, hgroup⟩
      obtain ⟨chars, hchars, rfl, -⟩ := decodeGroup_inv hgroup
      rw [decode85_group hchars rest (by omega), Option.map_eq_some_iff] at h
      obtain ⟨result, hrest, hmap⟩ := h
      cases result with
      | error failure => simp [Except.map] at hmap
      | ok tail =>
        simp only [Except.map, Except.ok.injEq] at hmap
        obtain ⟨groups, hcount, hgroups, hfront, rfl⟩ := ih (len - 4) (by omega) hrest
        refine ⟨chars :: groups, by rw [List.length_cons, hcount]; omega, ?_, ?_, ?_⟩
        · simpa [hchars] using hgroups
        · rw [List.flatten_cons]
          exact (List.prefix_append_right_inj chars).mpr hfront
        · rw [take_words, hmap]

lemma decode85_groups {groups : List (List UInt8)} (rest : List UInt8) {len : Nat}
    (hcount : groups.length = (len + 3) / 4) (h : ∀ chars ∈ groups, IsGroup chars) :
    decode85 (groups.flatten ++ rest) len = some (.ok ((words groups).take len)) := by
  induction groups generalizing len with
  | nil =>
    have hlen : len = 0 := by rw [List.length_nil] at hcount; omega
    rw [hlen, decode85, if_pos rfl, List.take_zero]
  | cons chars groups ih =>
    rw [List.length_cons] at hcount
    rw [List.flatten_cons, List.append_assoc, decode85_group (h chars (by simp)) _ (by omega),
      ih (by omega) fun chars hchars => h chars (by simp [hchars]), take_words]
    rfl

lemma decode85_overflow {groups : List (List UInt8)} {chars : List UInt8} (rest : List UInt8) {len : Nat}
    (hcount : groups.length < (len + 3) / 4) (h : ∀ chars ∈ groups, IsGroup chars) (hword : IsWord chars)
    (hvalue : 2 ^ 32 ≤ baseValue chars) :
    decode85 (groups.flatten ++ (chars ++ rest)) len = some (.error (.sequence chars)) := by
  induction groups generalizing len with
  | nil =>
    rw [List.length_nil] at hcount
    rw [List.flatten_nil, List.nil_append, decode85, if_neg (by omega), decodeGroup_word hword, if_neg (by omega)]
  | cons group groups ih =>
    rw [List.length_cons] at hcount
    rw [List.flatten_cons, List.append_assoc, decode85_group (h group (by simp)) _ (by omega),
      ih (by omega) fun chars hchars => h chars (by simp [hchars])]
    rfl

lemma accumulate_none {cnt : Nat} {acc : UInt32} {buffer : List UInt8} (h : accumulate cnt acc buffer = none) :
    ∀ ch ∈ buffer, ch ∈ en85 := by
  induction cnt generalizing acc buffer with
  | zero => simp [accumulate] at h
  | succ cnt ih =>
    cases buffer with
    | nil => simp
    | cons ch buffer =>
      by_cases hch : ch ∈ en85
      · rw [accumulate, digit_of_mem hch] at h
        simpa [hch] using ih h
      · simp [accumulate, digit_of_not_mem hch] at h

lemma decodeGroup_none {buffer : List UInt8} (h : decodeGroup buffer = none) : ∀ ch ∈ buffer, ch ∈ en85 := by
  rw [decodeGroup] at h
  split at h
  · rename_i hacc
    obtain ⟨chars, -, hchars, rfl⟩ := accumulate_inv hacc
    simpa using hchars
  · split at h
    · cases h
    · split at h <;> cases h
  · exact accumulate_none h

lemma decode85_isSome {buffer : List UInt8} (hnul : 0 ∈ buffer) (len : Nat) : (decode85 buffer len).isSome := by
  have hzero : (0 : UInt8) ∉ en85 := by decide
  induction len using Nat.strongRecOn generalizing buffer with
  | ind len ih =>
    rw [decode85]
    split
    · rfl
    · rename_i hlen
      split
      · rename_i hnone
        exact absurd (decodeGroup_none hnone 0 hnul) hzero
      · rfl
      · rename_i hgroup
        obtain ⟨chars, hchars, rfl, -⟩ := decodeGroup_inv hgroup
        have hrest := (List.mem_append.mp hnul).resolve_left fun hmem => hzero (hchars.alphabet 0 hmem)
        rw [Option.isSome_map]
        exact ih _ (by grind) hrest

lemma encode85_groups (data : List UInt8) :
    ∃ groups : List (List UInt8), encode85 data = groups.flatten ++ [0] ∧ groups.length = (data.length + 3) / 4 ∧
      (∀ chars ∈ groups, IsGroup chars) ∧ (words groups).take data.length = data := by
  induction hn : data.length using Nat.strongRecOn generalizing data with
  | ind n ih =>
    cases data with
    | nil => exact ⟨[], by simp [encode85], by simp [← hn], by simp, by simp [words]⟩
    | cons ch data =>
      have hgather := @gather_eq (ch :: data) (by simp)
      obtain ⟨chars, hwrite, hchars, hword⟩ := writeDigits_group (gather [24, 16, 8, 0] 0 (ch :: data)).1
      have hlen : ((ch :: data).drop 4).length = n - 4 := by rw [List.length_drop, hn]
      have hpos : 0 < n := by rw [← hn]; simp
      obtain ⟨groups, hencode, hcount, hgroups, hwords⟩ := ih (n - 4) (by omega) _ hlen
      refine ⟨chars :: groups, ?_, by rw [List.length_cons, hcount]; omega, by simpa [hchars] using hgroups, ?_⟩
      · rw [encode85]
        rw [hgather.1, hencode, hwrite, List.flatten_cons, List.append_assoc]
      · have htake : (putBe32 (UInt32.ofNat (baseValue chars))).take n = (ch :: data).take 4 := by
          rw [hword, ← hgather.2, hn]
          by_cases hle : n ≤ 4
          · rw [Nat.min_eq_left hle]
          · rw [Nat.min_eq_right (by omega), List.take_of_length_le (by simp; omega), List.take_of_length_le (by simp)]
        rw [take_words, hwords, htake, List.take_append_drop]

/-- Decoding what was encoded gives the data back. From any text a decoder that succeeds has read, for every
four bytes that it stores, five characters of the alphabet whose value is a 32-bit word, and stored the bytes
of the words; five characters with a larger value are an error, and the text is not read behind its NUL. -/
theorem decode85_codec :
    (∀ data, decode85 (encode85 data) data.length = some (.ok data)) ∧
    ∀ (buffer : List UInt8) (len : Nat),
      (0 ∈ buffer → (decode85 buffer len).isSome) ∧
      (∀ bytes, decode85 buffer len = some (.ok bytes) ↔
        ∃ groups : List (List UInt8), groups.length = (len + 3) / 4 ∧ (∀ chars ∈ groups, IsGroup chars) ∧
          groups.flatten <+: buffer ∧ bytes = (words groups).take len) ∧
      ∀ (groups : List (List UInt8)) (chars rest : List UInt8), groups.length < (len + 3) / 4 →
        (∀ group ∈ groups, IsGroup group) → IsWord chars → 2 ^ 32 ≤ baseValue chars →
        buffer = groups.flatten ++ (chars ++ rest) → decode85 buffer len = some (.error (.sequence chars)) := by
  constructor
  · intro data
    obtain ⟨groups, hencode, hcount, hgroups, hwords⟩ := encode85_groups data
    rw [hencode, decode85_groups [0] hcount hgroups, hwords]
  · intro buffer len
    refine ⟨fun hnul => decode85_isSome hnul len, fun bytes => ⟨decode85_inv, ?_⟩, ?_⟩
    · rintro ⟨groups, hcount, hgroups, ⟨rest, rfl⟩, rfl⟩
      exact decode85_groups rest hcount hgroups
    · rintro groups chars rest hcount hgroups hword hvalue rfl
      exact decode85_overflow rest hcount hgroups hword hvalue

end GitCore.Base85
