import GitCore.Lib.Wire

/-!
# Three codecs for variable length integers

`encode_varint` and `decode_varint` of `varint.c` and of `varint.rs`, and `put_var_int` and `get_var_int` of
the reftable library, each with the words and the buffer that it has. `none` stands for an access outside
a buffer.
-/

namespace GitCore.Varint

/-- `while (value >>= 7) varint[--pos] = 128 | (--value & 127)`, with the bytes from `pos` on. -/
def encodeLoop (value : UInt64) : Nat → List UInt8 → Option (List UInt8)
  | 0, bytes => if value >>> 7 = 0 then some bytes else none
  | pos + 1, bytes =>
    if value >>> 7 = 0 then some bytes
    else encodeLoop ((value >>> 7) - 1) pos (((128 : UInt64) ||| (((value >>> 7) - 1) &&& 127)).toUInt8 :: bytes)

/-- The bytes in the local buffer `varint` of a length. -/
def encodeIn (size : Nat) (value : UInt64) : Option (List UInt8) :=
  encodeLoop value (size - 1) [(value &&& 127).toUInt8]

/-- `encode_varint` of `varint.c`: the bytes that are copied and, for a buffer or none, counted. -/
def encodeVarint (value : UInt64) : Option (List UInt8) :=
  encodeIn 16 value

/-- `REFTABLE_ENTRY_TOO_BIG_ERROR` or the bytes that are written. -/
inductive PutResult
  | tooBig
  | bytes (bytes : List UInt8)
deriving DecidableEq

def putVarInt (room : Nat) (value : UInt64) : Option PutResult :=
  (encodeIn 10 value).map fun bytes => if room < bytes.length then .tooBig else .bytes bytes

namespace Rust

/-- `while value != 0`; `value` is already shifted. -/
def encodeLoop (value : UInt64) : Nat → List UInt8 → Option (List UInt8)
  | 0, varint => if value = 0 then some varint else none
  | pos + 1, varint =>
    if value ≠ 0 then
      let value := value - 1
      encodeLoop (value >>> 7) pos (((128 : UInt8) ||| (value &&& 127).toUInt8) :: varint)
    else some varint

def encodeVarint (value : UInt64) : Option (List UInt8) :=
  encodeLoop (value >>> 7) 15 [(value &&& 127).toUInt8]

end Rust

/-- The loop of a decoder with its test for an overflow; `c` is the byte just read. `none` is a read behind
the last byte, `some none` an overflow. -/
def decodeLoop (overflows : UInt64 → Bool) (val : UInt64) (c : UInt8) (buf : List UInt8) :
    Option (Option (UInt64 × List UInt8)) :=
  if c &&& 128 ≠ 0 then
    if overflows (val + 1) then some none
    else
      match buf with
      | [] => none
      | c :: buf => decodeLoop overflows (((val + 1) <<< 7) + (c &&& 127).toUInt64) c buf
  else some (some (val, buf))

def decodeWith (overflows : UInt64 → Bool) (buf : List UInt8) : Option (Option (UInt64 × List UInt8)) :=
  match buf with
  | [] => none
  | c :: rest => decodeLoop overflows (c &&& 127).toUInt64 c rest

def MSB (x bits : UInt64) : UInt64 :=
  x &&& ((0xffffffffffffffff : UInt64) <<< (64 - bits))

/-- `decode_varint` of `varint.c`: the value and what `bufp` points to then. After an overflow that is 0,
and `bufp` stays where it was. -/
def decodeVarint (buf : List UInt8) : Option (UInt64 × List UInt8) :=
  (decodeWith (fun val => val = 0 ∨ MSB val 7 ≠ 0) buf).map fun r => r.getD (0, buf)

namespace Rust

def leadingZeros (val : UInt64) : Nat :=
  if val = 0 then 64 else 63 - val.toNat.log2

def decodeVarint (buf : List UInt8) : Option (UInt64 × List UInt8) :=
  (decodeWith (fun val => val = 0 ∨ leadingZeros val < 7) buf).map fun r => r.getD (0, buf)

end Rust

/-- `get_var_int` of a view: the value and the number of bytes it takes; `none` is the result -1, for an
overflow as for a view that ends too early. -/
def getVarInt (view : List UInt8) : Option (UInt64 × Nat) :=
  (decodeWith (fun val => val = 0 ∨ val &&& ((0xffffffffffffffff : UInt64) <<< ((64 : UInt64) - 7)) ≠ 0) view).join.map
    fun r => (r.1, view.length - r.2.length)

end GitCore.Varint

/-!
# The three codecs are one bijection

Each encoder writes the bytes of `encodeVarint` on the numbers, and each decoder takes exactly the
terminated strings whose number fits 64 bits.
-/

namespace GitCore.Varint

lemma and_128_ne_zero_iff (c : UInt8) : c &&& 128 ≠ 0 ↔ ¬c.toNat < 128 := by
  have hall : ∀ n : Fin 256, UInt8.ofFin n &&& 128 ≠ 0 ↔ ¬(UInt8.ofFin n).toNat < 128 := by decide +kernel
  exact hall c.toFin

lemma and_127_toNat (c : UInt8) : (c &&& 127).toUInt64.toNat = c.toNat % 128 := by
  rw [UInt8.toNat_toUInt64, UInt8.toNat_and]
  exact Nat.and_two_pow_sub_one_eq_mod c.toNat 7

lemma and_127_toUInt8 (value : UInt64) : (value &&& 127).toUInt8 = UInt8.ofNat (value.toNat % 128) := by
  apply UInt8.toNat_inj.mp
  rw [UInt64.toNat_toUInt8, UInt64.toNat_and, UInt8.toNat_ofNat']
  have hmod := Nat.and_two_pow_sub_one_eq_mod value.toNat 7
  simp only [UInt64.reduceToNat] at hmod ⊢
  rw [show (127 : Nat) = 2 ^ 7 - 1 by rfl, hmod]

lemma shiftRight_7_toNat (value : UInt64) : (value >>> 7).toNat = value.toNat / 128 := by
  rw [UInt64.toNat_shiftRight]
  exact Nat.shiftRight_eq_div_pow value.toNat 7

lemma shiftRight_7_eq_zero_iff (value : UInt64) : value >>> 7 = 0 ↔ value.toNat / 128 = 0 := by
  rw [← UInt64.toNat_inj, shiftRight_7_toNat]
  rfl

lemma sub_one_toNat {value : UInt64} (h : value ≠ 0) : (value - 1).toNat = value.toNat - 1 := by
  have hpos : 0 < value.toNat := Nat.pos_of_ne_zero fun hzero => h (UInt64.toNat_inj.mp hzero)
  exact UInt64.toNat_sub_of_le value 1 (UInt64.le_iff_toNat_le.mpr hpos)

lemma and_high_ne_zero_iff (x : UInt64) :
    x &&& ((0xffffffffffffffff : UInt64) <<< ((64 : UInt64) - 7)) ≠ 0 ↔ 2 ^ 57 ≤ x.toNat := by
  have hmask : ((0xffffffffffffffff : UInt64) <<< ((64 : UInt64) - 7)).toNat = 127 <<< 57 := by decide +kernel
  have hx := x.toNat_lt
  rw [ne_eq, ← UInt64.toNat_inj, UInt64.toNat_and, hmask, ← not_lt, not_iff_not]
  constructor
  · intro h
    have hshift : (x.toNat &&& 127 <<< 57) >>> 57 = x.toNat >>> 57 &&& 127 := by
      rw [Nat.shiftRight_and_distrib, Nat.shiftLeft_shiftRight]
    rw [show (0 : UInt64).toNat = 0 by rfl] at h
    rw [h, Nat.zero_shiftRight, Nat.shiftRight_eq_div_pow, Nat.and_two_pow_sub_one_eq_mod _ 7] at hshift
    omega
  · intro h
    apply Nat.eq_of_testBit_eq
    intro i
    rw [Nat.testBit_and, Nat.testBit_shiftLeft]
    rcases Nat.lt_or_ge i 57 with hi | hi
    · simp [hi]
    · rw [Nat.testBit_lt_two_pow (h.trans_le (Nat.pow_le_pow_right (by decide) hi))]
      simp

lemma leadingZeros_lt_iff {x : UInt64} (h : x ≠ 0) : Rust.leadingZeros x < 7 ↔ 2 ^ 57 ≤ x.toNat := by
  have hne : x.toNat ≠ 0 := fun hzero => h (UInt64.toNat_inj.mp hzero)
  have hlog : x.toNat.log2 < 64 := (Nat.log2_lt hne).mpr x.toNat_lt
  rw [Rust.leadingZeros, if_neg h, ← Nat.le_log2 hne]
  omega

def CutsOff (overflows : UInt64 → Bool) : Prop :=
  ∀ val : UInt64, overflows (val + 1) = true ↔ 2 ^ 57 ≤ val.toNat + 1

lemma cutsOff_of_high {test : UInt64 → Prop} [DecidablePred test] (h : ∀ val, val ≠ 0 → (test val ↔ 2 ^ 57 ≤ val.toNat)) :
    CutsOff fun val => val = 0 ∨ test val := by
  intro val
  have hval := val.toNat_lt
  have hadd : (val + 1).toNat = (val.toNat + 1) % 2 ^ 64 := UInt64.toNat_add val 1
  rw [decide_eq_true_iff]
  by_cases hzero : val + 1 = 0
  · have hwrap : (val.toNat + 1) % 2 ^ 64 = 0 := by
      rw [← hadd, hzero]
      rfl
    exact iff_of_true (.inl hzero) (by omega)
  · have hne : (val + 1).toNat ≠ 0 := fun hnat => hzero (UInt64.toNat_inj.mp hnat)
    rw [or_iff_right hzero, h _ hzero, hadd]
    rw [hadd] at hne
    omega

lemma cutsOff_MSB : CutsOff fun val => val = 0 ∨ MSB val 7 ≠ 0 :=
  cutsOff_of_high fun val _ => and_high_ne_zero_iff val

lemma cutsOff_leadingZeros : CutsOff fun val => val = 0 ∨ Rust.leadingZeros val < 7 :=
  cutsOff_of_high fun _ h => leadingZeros_lt_iff h

def ofNats (r : Nat × List UInt8) : UInt64 × List UInt8 :=
  (UInt64.ofNat r.1, r.2)

lemma next_toNat {val : UInt64} (h : ¬2 ^ 57 ≤ val.toNat + 1) (c : UInt8) :
    (((val + 1) <<< 7) + (c &&& 127).toUInt64).toNat = (val.toNat + 1) * 128 + c.toNat % 128 := by
  have hone : (val + 1).toNat = val.toNat + 1 := by
    rw [UInt64.toNat_add]
    exact Nat.mod_eq_of_lt (by simp; omega)
  have hshift : ((val + 1) <<< 7).toNat = (val.toNat + 1) * 128 := by
    rw [UInt64.toNat_shiftLeft, hone, show (7 : UInt64).toNat % 64 = 7 by rfl, Nat.shiftLeft_eq]
    exact Nat.mod_eq_of_lt (by omega)
  rw [UInt64.toNat_add, hshift, and_127_toNat]
  exact Nat.mod_eq_of_lt (by omega)

variable {overflows : UInt64 → Bool}

lemma decodeLoop_eq (h : CutsOff overflows) (val : UInt64) (c : UInt8)
    (buf : List UInt8) : decodeLoop overflows val c buf =
      if c.toNat < 128 then some (some (val, buf))
      else (decodeVarintAux (val.toNat + 1) buf).map fun r => r.map ofNats := by
  induction buf generalizing val c with
  | nil =>
    rw [decodeLoop, decodeVarintAux]
    by_cases hc : c.toNat < 128
    · rw [if_neg (fun hm => (and_128_ne_zero_iff c).mp hm hc), if_pos hc]
    · rw [if_pos ((and_128_ne_zero_iff c).mpr hc), if_neg hc]
      by_cases hbig : 2 ^ 57 ≤ val.toNat + 1
      · rw [if_pos ((h val).mpr hbig), if_pos hbig]
        rfl
      · rw [if_neg fun ho => hbig ((h val).mp ho), if_neg hbig]
        rfl
  | cons c' buf ih =>
    rw [decodeLoop, decodeVarintAux]
    by_cases hc : c.toNat < 128
    · rw [if_neg (fun hm => (and_128_ne_zero_iff c).mp hm hc), if_pos hc]
    · rw [if_pos ((and_128_ne_zero_iff c).mpr hc), if_neg hc]
      by_cases hbig : 2 ^ 57 ≤ val.toNat + 1
      · rw [if_pos ((h val).mpr hbig), if_pos hbig]
        rfl
      · rw [if_neg fun ho => hbig ((h val).mp ho), if_neg hbig, ih, next_toNat hbig]
        by_cases hc' : c'.toNat < 128
        · rw [if_pos hc', if_pos hc']
          have hnext := next_toNat hbig c'
          rw [Nat.mod_eq_of_lt hc'] at hnext
          rw [← hnext]
          simp only [Option.map_some, ofNats, UInt64.ofNat_toNat]
        · rw [if_neg hc', if_neg hc']

lemma decodeWith_eq (h : CutsOff overflows) (buf : List UInt8) :
    decodeWith overflows buf = (decodeVarintAux 0 buf).map fun r => r.map ofNats := by
  cases buf with
  | nil => rfl
  | cons c rest =>
    have hzero : ¬2 ^ 57 ≤ 0 := by decide
    rw [decodeWith, decodeLoop_eq h, decodeVarintAux, if_neg hzero, and_127_toNat, Nat.zero_mul, Nat.zero_add,
      Nat.zero_add]
    by_cases hc : c.toNat < 128
    · rw [if_pos hc, if_pos hc]
      have hval : (c &&& 127).toUInt64 = UInt64.ofNat c.toNat := by
        apply UInt64.toNat_inj.mp
        rw [and_127_toNat, Nat.mod_eq_of_lt hc, UInt64.toNat_ofNat', Nat.mod_eq_of_lt (by omega)]
      rw [hval]
      rfl
    · rw [if_neg hc, if_neg hc]

lemma decodeWith_terminated (h : CutsOff overflows) {bytes : List UInt8}
    (hbytes : Terminated bytes) (rest : List UInt8) :
    decodeWith overflows (bytes ++ rest) =
      some (if varintValue bytes < 2 ^ 64 then some (UInt64.ofNat (varintValue bytes), rest) else none) := by
  rw [decodeWith_eq h, decodeVarintAux_terminated hbytes, Option.map_some, varintValue]
  split <;> rfl

lemma encodeByte (value : UInt64) :
    ((128 : UInt64) ||| (value &&& 127)).toUInt8 = UInt8.ofNat (128 + value.toNat % 128) := by
  apply UInt8.toNat_inj.mp
  have hmod := Nat.and_two_pow_sub_one_eq_mod value.toNat 7
  have hor := Nat.two_pow_add_eq_or_of_lt (Nat.mod_lt value.toNat (show 2 ^ 7 > 0 by decide)) 1
  rw [UInt64.toNat_toUInt8, UInt64.toNat_or, UInt64.toNat_and, UInt8.toNat_ofNat']
  rw [show (127 : UInt64).toNat = 2 ^ 7 - 1 by rfl, show (128 : UInt64).toNat = 2 ^ 7 * 1 by rfl, hmod, ← hor]

lemma rustEncodeByte (value : UInt64) :
    (128 : UInt8) ||| (value &&& 127).toUInt8 = UInt8.ofNat (128 + value.toNat % 128) := by
  have hor := Nat.two_pow_add_eq_or_of_lt (Nat.mod_lt value.toNat (show 2 ^ 7 > 0 by decide)) 1
  have hlt : value.toNat % 2 ^ 7 < 2 ^ 8 := by omega
  apply UInt8.toNat_inj.mp
  rw [and_127_toUInt8, UInt8.toNat_or, UInt8.toNat_ofNat', UInt8.toNat_ofNat',
    show (128 : UInt8).toNat = 2 ^ 7 * 1 by rfl, show (128 : Nat) = 2 ^ 7 by rfl, Nat.mod_eq_of_lt hlt, ← hor]
  omega

lemma encodeLoop_eq {value : UInt64} {pos : Nat} (h : value.toNat < 128 ^ (pos + 1)) (bytes : List UInt8) :
    encodeLoop value pos bytes = some (encodeVarintAux value.toNat bytes) := by
  induction pos generalizing value bytes with
  | zero =>
    have hdiv : value.toNat / 128 = 0 := Nat.div_eq_of_lt (by simpa using h)
    rw [encodeLoop, if_pos ((shiftRight_7_eq_zero_iff value).mpr hdiv), encodeVarintAux, if_pos hdiv]
  | succ pos ih =>
    rw [encodeLoop, encodeVarintAux]
    by_cases hdiv : value.toNat / 128 = 0
    · rw [if_pos ((shiftRight_7_eq_zero_iff value).mpr hdiv), if_pos hdiv]
    · have hne : value >>> 7 ≠ 0 := fun hzero => hdiv ((shiftRight_7_eq_zero_iff value).mp hzero)
      have hsub : ((value >>> 7) - 1).toNat = value.toNat / 128 - 1 := by
        rw [sub_one_toNat hne, shiftRight_7_toNat]
      have hlt : ((value >>> 7) - 1).toNat < 128 ^ (pos + 1) := by
        rw [pow_succ] at h
        have hquot := Nat.div_lt_of_lt_mul (Nat.mul_comm (128 ^ (pos + 1)) 128 ▸ h)
        omega
      rw [if_neg hne, if_neg hdiv, ih hlt, hsub, encodeByte, hsub]

lemma rustEncodeLoop_eq (value : UInt64) (pos : Nat) (bytes : List UInt8) :
    Rust.encodeLoop (value >>> 7) pos bytes = encodeLoop value pos bytes := by
  induction pos generalizing value bytes with
  | zero => rfl
  | succ pos ih =>
    rw [Rust.encodeLoop, encodeLoop]
    by_cases hzero : value >>> 7 = 0
    · rw [if_neg (not_not.mpr hzero), if_pos hzero]
    · rw [if_pos hzero, if_neg hzero]
      dsimp only
      rw [ih, rustEncodeByte, encodeByte]

lemma encodeIn_eq {size : Nat} (hsize : 10 ≤ size) (value : UInt64) :
    encodeIn size value = some (GitCore.encodeVarint value.toNat) := by
  have hroom : value.toNat < 128 ^ (size - 1 + 1) := by
    refine value.toNat_lt.trans (lt_of_lt_of_le (by decide : 2 ^ 64 < 128 ^ 10) ?_)
    exact Nat.pow_le_pow_right (by decide) (by omega)
  rw [encodeIn, encodeLoop_eq hroom, and_127_toUInt8]
  rfl

/-- An encoder and a decoder for terminated strings: every word is written as its bytes and read back with
whatever follows left, no two strings give the same word, and a string whose number does not fit is
rejected. -/
structure Codec (encode : UInt64 → Option (List UInt8))
    (decode : List UInt8 → Option (Option (UInt64 × List UInt8))) : Prop where
  encodes : ∀ value, encode value = some (GitCore.encodeVarint value.toNat)
  recovers : ∀ value rest, decode (GitCore.encodeVarint value.toNat ++ rest) = some (some (value, rest))
  injective : ∀ s t value, Terminated s → Terminated t → decode s = some (some (value, [])) →
    decode t = some (some (value, [])) → s = t
  rejects : ∀ s rest, Terminated s → 2 ^ 64 ≤ varintValue s → decode (s ++ rest) = some none

lemma varintValue_encodeVarint (value : UInt64) : varintValue (GitCore.encodeVarint value.toNat) = value.toNat := by
  have hterm := terminated_encodeVarint value.toNat
  have hdecode := decodeVarintAux_encodeVarint value.toNat_lt []
  rw [decodeVarintAux_terminated hterm] at hdecode
  split at hdecode
  · exact (Prod.mk.inj (Option.some.inj (Option.some.inj hdecode))).1
  · cases hdecode

lemma codec_of {encode : UInt64 → Option (List UInt8)} {overflows : UInt64 → Bool} (h : CutsOff overflows)
    (hencode : ∀ value, encode value = some (GitCore.encodeVarint value.toNat)) :
    Codec encode (decodeWith overflows) where
  encodes := hencode
  recovers := by
    intro value rest
    rw [decodeWith_terminated h (terminated_encodeVarint _), varintValue_encodeVarint, if_pos value.toNat_lt,
      UInt64.ofNat_toNat]
  injective := by
    intro s t value hs ht hdecode hdecode'
    have hvalue : ∀ {bytes}, Terminated bytes → decodeWith overflows bytes = some (some (value, [])) →
        varintValue bytes = value.toNat := by
      intro bytes hbytes hdec
      have hall := decodeWith_terminated h hbytes []
      rw [List.append_nil, hdec] at hall
      split at hall
      · next hfits =>
        have hword := (Prod.mk.inj (Option.some.inj (Option.some.inj hall))).1
        rw [hword, UInt64.toNat_ofNat', Nat.mod_eq_of_lt hfits]
      · cases hall
    exact varintValue_injective hs ht ((hvalue hs hdecode).trans (hvalue ht hdecode').symm)
  rejects := by
    intro s rest hs hbig
    rw [decodeWith_terminated h hs, if_neg (not_lt.mpr hbig)]

/-- What the caller of `decode_varint` learns: there is a value if `bufp` has moved. -/
def moved (decode : List UInt8 → Option (UInt64 × List UInt8)) (buf : List UInt8) :
    Option (Option (UInt64 × List UInt8)) :=
  (decode buf).map fun r => if r.2 = buf then none else some r

/-- What the caller of `get_var_int` learns: the value and the view without its bytes. -/
def consumed (view : List UInt8) : Option (Option (UInt64 × List UInt8)) :=
  some ((getVarInt view).map fun r => (r.1, view.drop r.2))

/-- What `put_var_int` writes, if there is room for it. -/
def written (room : Nat) (value : UInt64) : Option (List UInt8) :=
  match putVarInt room value with
  | some (.bytes bytes) => some bytes
  | _ => none

lemma decodeVarintAux_suffix {val : Nat} {bytes : List UInt8} {r : Nat × List UInt8}
    (h : decodeVarintAux val bytes = some (some r)) : ∃ c front, bytes = c :: front ++ r.2 := by
  induction bytes generalizing val with
  | nil =>
    rw [decodeVarintAux] at h
    split at h <;> cases h
  | cons c bytes ih =>
    rw [decodeVarintAux] at h
    split at h
    · cases h
    split at h
    · cases h
      exact ⟨c, [], rfl⟩
    · obtain ⟨c', front, rfl⟩ := ih h
      exact ⟨c, c' :: front, rfl⟩

lemma decodeWith_suffix (h : CutsOff overflows) {buf : List UInt8}
    {r : UInt64 × List UInt8} (hr : decodeWith overflows buf = some (some r)) : ∃ c front, buf = c :: front ++ r.2 := by
  rw [decodeWith_eq h, Option.map_eq_some_iff] at hr
  obtain ⟨r', haux, hr'⟩ := hr
  obtain ⟨n, rfl, rfl⟩ := Option.map_eq_some_iff.mp hr'
  exact decodeVarintAux_suffix haux

lemma moved_eq (h : CutsOff overflows) (buf : List UInt8) :
    moved (fun buf => (decodeWith overflows buf).map fun r => r.getD (0, buf)) buf = decodeWith overflows buf := by
  rw [moved]
  rcases hr : decodeWith overflows buf with _ | _ | r
  · rfl
  · simp
  · obtain ⟨c, front, rfl⟩ := decodeWith_suffix h hr
    have hne : r.2 ≠ c :: front ++ r.2 := by
      intro heq
      have hlen := congrArg List.length heq
      simp at hlen
      omega
    rw [Option.map_some, Option.map_some, Option.getD_some, if_neg hne]

lemma codec_moved {encode : UInt64 → Option (List UInt8)} {overflows : UInt64 → Bool} (h : CutsOff overflows)
    (hencode : ∀ value, encode value = some (GitCore.encodeVarint value.toNat)) :
    Codec encode (moved fun buf => (decodeWith overflows buf).map fun r => r.getD (0, buf)) := by
  have heq : (moved fun buf => (decodeWith overflows buf).map fun r => r.getD (0, buf)) = decodeWith overflows :=
    funext (moved_eq h)
  rw [heq]
  exact codec_of h hencode

lemma consumed_eq (view : List UInt8) :
    consumed view = some (decodeWith (fun val => val = 0 ∨ MSB val 7 ≠ 0) view).join := by
  rw [consumed, getVarInt]
  congr 1
  change ((decodeWith (fun val => val = 0 ∨ MSB val 7 ≠ 0) view).join.map _).map _ = _
  rw [Option.map_map]
  rcases hr : decodeWith (fun val => val = 0 ∨ MSB val 7 ≠ 0) view with _ | _ | r
  · rfl
  · rfl
  · obtain ⟨c, front, rfl⟩ := decodeWith_suffix cutsOff_MSB hr
    have hdrop : (c :: front ++ r.2).drop ((c :: front ++ r.2).length - r.2.length) = r.2 := by
      rw [List.length_append, Nat.add_sub_cancel, List.drop_left]
    rw [Option.join_some, Option.map_some, Function.comp_apply, hdrop]

lemma putVarInt_eq (room : Nat) (value : UInt64) :
    putVarInt room value = some (if room < (GitCore.encodeVarint value.toNat).length then .tooBig
      else .bytes (GitCore.encodeVarint value.toNat)) := by
  rw [putVarInt, encodeIn_eq (le_refl 10), Option.map_some]

lemma codec_reftable : Codec (written 10) consumed := by
  have hcodec := @codec_of (written 10) _ cutsOff_MSB (fun value => by
    have hroom := length_encodeVarint_le value.toNat_lt
    rw [written, putVarInt_eq, if_neg (not_lt.mpr hroom)])
  constructor
  · exact hcodec.encodes
  · intro value rest
    rw [consumed_eq, hcodec.recovers]
    rfl
  · intro s t value hs ht hdecode hdecode'
    refine hcodec.injective s t value hs ht ?_ ?_
    · rw [consumed_eq, Option.some_inj, Option.join_eq_some_iff] at hdecode
      exact hdecode
    · rw [consumed_eq, Option.some_inj, Option.join_eq_some_iff] at hdecode'
      exact hdecode'
  · intro s rest hs hbig
    rw [consumed_eq, hcodec.rejects s rest hs hbig]
    rfl

/-- The three codecs are the same: each writes the bytes of `encodeVarint` on the numbers, in a buffer that is
never too short, reads exactly them back and rejects what does not fit 64 bits. `put_var_int` fails
exactly if the view has no room. -/
theorem varint_codecs (room : Nat) (value : UInt64) :
    Codec encodeVarint (moved decodeVarint) ∧ Codec Rust.encodeVarint (moved Rust.decodeVarint) ∧
      Codec (written 10) consumed ∧
      putVarInt room value = some (if room < (GitCore.encodeVarint value.toNat).length then .tooBig
        else .bytes (GitCore.encodeVarint value.toNat)) := by
  refine ⟨?_, ?_, codec_reftable, putVarInt_eq room value⟩
  · exact codec_moved cutsOff_MSB fun value => encodeIn_eq (by decide) value
  · refine codec_moved cutsOff_leadingZeros fun value => ?_
    rw [Rust.encodeVarint, rustEncodeLoop_eq]
    exact @encodeIn_eq 16 (by decide) value

end GitCore.Varint
