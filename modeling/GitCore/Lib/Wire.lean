import Mathlib.Tactic

/-!
# Numbers as bytes

Big-endian words of two and four bytes, and the variable length numbers of `varint.c`, in which a
byte with its high bit set stands for a number that is larger by one.
-/

namespace GitCore

def putBe16 (v : UInt16) : List UInt8 :=
  [UInt8.ofNat (v.toNat / 2 ^ 8), UInt8.ofNat v.toNat]

def putBe32 (v : UInt32) : List UInt8 :=
  [UInt8.ofNat (v.toNat / 2 ^ 24), UInt8.ofNat (v.toNat / 2 ^ 16), UInt8.ofNat (v.toNat / 2 ^ 8), UInt8.ofNat v.toNat]

def getBe16 (bytes : List UInt8) (pos : Nat) : Option UInt16 :=
  match bytes.drop pos with
  | a :: b :: _ => some (UInt16.ofNat (a.toNat * 2 ^ 8 + b.toNat))
  | _ => none

def getBe32 (bytes : List UInt8) (pos : Nat) : Option UInt32 :=
  match bytes.drop pos with
  | a :: b :: c :: d :: _ =>
    some (UInt32.ofNat (a.toNat * 2 ^ 24 + b.toNat * 2 ^ 16 + c.toNat * 2 ^ 8 + d.toNat))
  | _ => none

@[simp] lemma length_putBe16 (v : UInt16) : (putBe16 v).length = 2 := rfl

@[simp] lemma length_putBe32 (v : UInt32) : (putBe32 v).length = 4 := rfl

lemma getBe16_put (v : UInt16) (rest : List UInt8) : getBe16 (putBe16 v ++ rest) 0 = some v := by
  have hv := v.toNat_lt
  simp only [getBe16, List.drop_zero, putBe16, List.cons_append, Option.some_inj]
  apply UInt16.toNat_inj.mp
  simp only [UInt16.toNat_ofNat', UInt8.toNat_ofNat']
  omega

lemma getBe32_put (v : UInt32) (rest : List UInt8) : getBe32 (putBe32 v ++ rest) 0 = some v := by
  have hv := v.toNat_lt
  simp only [getBe32, List.drop_zero, putBe32, List.cons_append, Option.some_inj]
  apply UInt32.toNat_inj.mp
  simp only [UInt32.toNat_ofNat', UInt8.toNat_ofNat']
  omega

lemma getBe16_append (before rest : List UInt8) (pos : Nat) :
    getBe16 (before ++ rest) (before.length + pos) = getBe16 rest pos := by
  rw [getBe16, getBe16, List.drop_append, List.drop_of_length_le (by omega), List.nil_append,
    Nat.add_sub_cancel_left]

lemma getBe16_at {before : List UInt8} {pos : Nat} (h : pos = before.length) (v : UInt16) (rest : List UInt8) :
    getBe16 (before ++ (putBe16 v ++ rest)) pos = some v := by
  have := getBe16_append before (putBe16 v ++ rest) 0
  rw [Nat.add_zero, getBe16_put] at this
  rw [h, this]

lemma getBe32_append (before rest : List UInt8) (pos : Nat) :
    getBe32 (before ++ rest) (before.length + pos) = getBe32 rest pos := by
  rw [getBe32, getBe32, List.drop_append, List.drop_of_length_le (by omega), List.nil_append,
    Nat.add_sub_cancel_left]

lemma getBe32_skip (v : UInt32) (rest : List UInt8) (pos : Nat) :
    getBe32 (putBe32 v ++ rest) (pos + 4) = getBe32 rest pos := by
  rw [Nat.add_comm]
  exact getBe32_append (putBe32 v) rest pos

def encodeVarintAux (value : Nat) (tail : List UInt8) : List UInt8 :=
  if value / 128 = 0 then tail
  else encodeVarintAux (value / 128 - 1) (UInt8.ofNat (128 + (value / 128 - 1) % 128) :: tail)
termination_by value
decreasing_by omega

def encodeVarint (value : Nat) : List UInt8 :=
  encodeVarintAux value [UInt8.ofNat (value % 128)]

/-- The loop of `decode_varint` with the number so far, already increased for the next byte; an
overflow leaves no number. -/
def decodeVarintAux (val : Nat) (bytes : List UInt8) : Option (Option (Nat × List UInt8)) :=
  if 2 ^ 57 ≤ val then some none
  else
    match bytes with
    | [] => none
    | c :: rest =>
      if c.toNat < 128 then some (some (val * 128 + c.toNat, rest))
      else decodeVarintAux (val * 128 + c.toNat % 128 + 1) rest

/-- `decode_varint`: the number and the bytes behind it, after an overflow 0 and all bytes; `none` if
it reads behind the last byte. -/
def decodeVarint (bytes : List UInt8) : Option (Nat × List UInt8) :=
  (decodeVarintAux 0 bytes).map (fun r => r.getD (0, bytes))

lemma decodeVarintAux_encode (value : Nat) (hvalue : value < 2 ^ 64) (tail : List UInt8) :
    decodeVarintAux 0 (encodeVarintAux value tail) = decodeVarintAux (value / 128) tail := by
  induction value using Nat.strong_induction_on generalizing tail with
  | _ value ih =>
    rw [encodeVarintAux]
    split_ifs with hlast
    · rw [hlast]
    · rw [ih (value / 128 - 1) (by omega) (by omega), decodeVarintAux]
      have hbyte : (UInt8.ofNat (128 + (value / 128 - 1) % 128)).toNat = 128 + (value / 128 - 1) % 128 := by
        rw [UInt8.toNat_ofNat']
        omega
      rw [if_neg (by omega)]
      simp only [hbyte]
      rw [if_neg (by omega)]
      congr 1
      omega

lemma encodeVarintAux_append (value : Nat) (tail rest : List UInt8) :
    encodeVarintAux value tail ++ rest = encodeVarintAux value (tail ++ rest) := by
  induction value using Nat.strong_induction_on generalizing tail with
  | _ value ih =>
    rw [encodeVarintAux.eq_1 value tail, encodeVarintAux.eq_1 value (tail ++ rest)]
    split_ifs with hlast
    · rfl
    · rw [ih (value / 128 - 1) (by omega), List.cons_append]

lemma decodeVarintAux_encodeVarint {value : Nat} (hvalue : value < 2 ^ 64) (rest : List UInt8) :
    decodeVarintAux 0 (encodeVarint value ++ rest) = some (some (value, rest)) := by
  have hbyte : (UInt8.ofNat (value % 128)).toNat = value % 128 := by
    rw [UInt8.toNat_ofNat']
    omega
  rw [encodeVarint, encodeVarintAux_append, decodeVarintAux_encode value hvalue, List.singleton_append,
    decodeVarintAux, if_neg (by omega)]
  simp only [hbyte]
  rw [if_pos (by omega)]
  congr 3
  omega

theorem decodeVarint_encode {value : Nat} (hvalue : value < 2 ^ 64) (rest : List UInt8) :
    decodeVarint (encodeVarint value ++ rest) = some (value, rest) := by
  rw [decodeVarint, decodeVarintAux_encodeVarint hvalue, Option.map_some, Option.getD_some]

def Terminated : List UInt8 → Prop
  | [] => False
  | c :: rest => if c.toNat < 128 then rest = [] else Terminated rest

/-- The number of a terminated string, whatever its size, after bytes that stand for `val`. -/
def varintValueFrom (val : Nat) : List UInt8 → Nat
  | [] => val
  | c :: rest => if c.toNat < 128 then val * 128 + c.toNat else varintValueFrom (val * 128 + c.toNat % 128 + 1) rest

def varintValue (bytes : List UInt8) : Nat :=
  varintValueFrom 0 bytes

def encodeVarintBefore (val : Nat) (tail : List UInt8) : List UInt8 :=
  if val = 0 then tail else encodeVarintAux (val - 1) (UInt8.ofNat (128 + (val - 1) % 128) :: tail)

lemma encodeVarintAux_eq_before {val digit : Nat} (hdigit : digit < 128) (tail : List UInt8) :
    encodeVarintAux (val * 128 + digit) tail = encodeVarintBefore val tail := by
  have hdiv : (val * 128 + digit) / 128 = val := by omega
  rw [encodeVarintAux, hdiv, encodeVarintBefore]

variable {bytes : List UInt8}

lemma encodeVarint_varintValueFrom (h : Terminated bytes) (val : Nat) :
    encodeVarint (varintValueFrom val bytes) = encodeVarintBefore val bytes := by
  induction bytes generalizing val with
  | nil => exact h.elim
  | cons c rest ih =>
    rw [Terminated] at h
    rw [varintValueFrom]
    split at h
    · next hlast =>
      have hmod : (val * 128 + c.toNat) % 128 = c.toNat := by omega
      rw [if_pos hlast, encodeVarint, hmod, UInt8.ofNat_toNat, encodeVarintAux_eq_before hlast, h]
    · next hmore =>
      have hbyte : UInt8.ofNat (128 + c.toNat % 128) = c := by
        have hc := c.toNat_lt
        rw [show 128 + c.toNat % 128 = c.toNat by omega, UInt8.ofNat_toNat]
      have hmod : (val * 128 + c.toNat % 128) % 128 = c.toNat % 128 := by omega
      rw [if_neg hmore, ih h, encodeVarintBefore, if_neg (Nat.succ_ne_zero _), Nat.add_sub_cancel, hmod, hbyte,
        encodeVarintAux_eq_before (Nat.mod_lt _ (by decide))]

theorem encodeVarint_varintValue (h : Terminated bytes) :
    encodeVarint (varintValue bytes) = bytes :=
  encodeVarint_varintValueFrom h 0

/-- Two terminated strings of one number are the same. -/
theorem varintValue_injective {bytes bytes' : List UInt8} (h : Terminated bytes) (h' : Terminated bytes')
    (heq : varintValue bytes = varintValue bytes') : bytes = bytes' := by
  rw [← encodeVarint_varintValue h, ← encodeVarint_varintValue h', heq]

lemma terminated_encodeVarintAux {value : Nat} {tail : List UInt8} (h : Terminated tail) :
    Terminated (encodeVarintAux value tail) := by
  induction value using Nat.strong_induction_on generalizing tail with
  | _ value ih =>
    rw [encodeVarintAux]
    split
    · exact h
    · refine ih _ (by omega) ?_
      rw [Terminated, if_neg]
      · exact h
      · rw [UInt8.toNat_ofNat']
        omega

lemma terminated_encodeVarint (value : Nat) : Terminated (encodeVarint value) := by
  apply terminated_encodeVarintAux
  rw [Terminated, if_pos]
  rw [UInt8.toNat_ofNat']
  omega

lemma length_encodeVarintAux_le (n : Nat) {value : Nat} (h : value < 128 ^ (n + 1)) (tail : List UInt8) :
    (encodeVarintAux value tail).length ≤ tail.length + n := by
  induction n generalizing value tail with
  | zero =>
    rw [encodeVarintAux, if_pos (Nat.div_eq_of_lt (by simpa using h))]
    exact le_refl _
  | succ n ih =>
    rw [encodeVarintAux]
    split
    · omega
    · have hnext : value / 128 - 1 < 128 ^ (n + 1) := by
        rw [pow_succ] at h
        have hdiv := Nat.div_lt_of_lt_mul (Nat.mul_comm (128 ^ (n + 1)) 128 ▸ h)
        omega
      have hlen := ih hnext (UInt8.ofNat (128 + (value / 128 - 1) % 128) :: tail)
      rw [List.length_cons] at hlen
      omega

lemma length_encodeVarint_le {value : Nat} (h : value < 2 ^ 64) : (encodeVarint value).length ≤ 10 :=
  length_encodeVarintAux_le 9 (h.trans (by decide)) _

lemma le_varintValueFrom (h : Terminated bytes) (val : Nat) : val * 128 ≤ varintValueFrom val bytes := by
  induction bytes generalizing val with
  | nil => exact h.elim
  | cons c rest ih =>
    rw [Terminated] at h
    rw [varintValueFrom]
    split at h
    · next hlast =>
      rw [if_pos hlast]
      exact Nat.le_add_right _ _
    · next hmore =>
      rw [if_neg hmore]
      have hrest := ih h (val * 128 + c.toNat % 128 + 1)
      omega

lemma decodeVarintAux_terminated (h : Terminated bytes) (val : Nat) (rest : List UInt8) :
    decodeVarintAux val (bytes ++ rest) =
      some (if varintValueFrom val bytes < 2 ^ 64 then some (varintValueFrom val bytes, rest) else none) := by
  induction bytes generalizing val with
  | nil => exact h.elim
  | cons c bytes ih =>
    have hle := le_varintValueFrom h val
    rw [List.cons_append, decodeVarintAux]
    by_cases hbig : 2 ^ 57 ≤ val
    · rw [if_pos hbig, if_neg (by omega)]
    · rw [if_neg hbig]
      rw [Terminated] at h
      rw [varintValueFrom]
      split at h
      · next hlast =>
        rw [if_pos hlast, if_pos hlast, if_pos (by omega), h, List.nil_append]
      · next hmore => rw [if_neg hmore, if_neg hmore, ih h]

end GitCore
