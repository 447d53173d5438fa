import GitCore.Lib.Wire

/-!
# Headers of packed objects

The type and the size in front of an object (`pack-write.c`, `packfile.c`), and the distance to the
base behind the header of an `OBJ_OFS_DELTA`.
-/

namespace GitCore.Pack

abbrev objOfsDelta : Nat := 6

abbrev objRefDelta : Nat := 7

/-- The loop of `encode_in_pack_object_header` with its next byte. -/
def encodeHeaderAux (c size : Nat) : List UInt8 :=
  if size = 0 then [UInt8.ofNat c]
  else UInt8.ofNat (c + 128) :: encodeHeaderAux (size % 128) (size / 128)
termination_by size
decreasing_by omega

def encodeInPackObjectHeader (type size : Nat) : List UInt8 :=
  encodeHeaderAux (type * 16 + size % 16) (size / 16)

/-- The loop of `unpack_object_header_buffer`: the size and the number of bytes used. -/
def unpackSizeAux (size shift used : Nat) : List UInt8 → Option (Nat × Nat)
  | [] => none
  | c :: buf =>
    if 57 < shift then none
    else if c.toNat < 128 then some (size + c.toNat * 2 ^ shift, used + 1)
    else unpackSizeAux (size + c.toNat % 128 * 2 ^ shift) (shift + 7) (used + 1) buf

/-- `unpack_object_header_buffer`: the type, the size and the number of bytes used. -/
def unpackObjectHeaderBuffer : List UInt8 → Option (Nat × Nat × Nat)
  | [] => none
  | c :: buf =>
    if c.toNat < 128 then some (c.toNat / 16 % 8, c.toNat % 16, 1)
    else (unpackSizeAux (c.toNat % 16) 4 1 buf).map fun r => (c.toNat / 16 % 8, r)

/-- The distance in front of an offset delta: the loop of `get_delta_base`, with the rest. -/
def readOfsDelta (baseInfo : List UInt8) : Option (Nat × List UInt8) :=
  (decodeVarintAux 0 baseInfo).join

lemma encodeHeaderAux_ne_nil (c size : Nat) : encodeHeaderAux c size ≠ [] := by
  rw [encodeHeaderAux]
  split_ifs <;> simp

lemma length_encodeInPackObjectHeader_pos (type size : Nat) : 0 < (encodeInPackObjectHeader type size).length :=
  List.length_pos_of_ne_nil (encodeHeaderAux_ne_nil _ _)

lemma unpackSizeAux_encode {k c size shift : Nat} (hshift : shift + 7 * k = 60) (hc : c < 128)
    (hsize : c + 128 * size < 2 ^ (7 * k)) (hpos : 0 < k) (size₀ used : Nat) (rest : List UInt8) :
    unpackSizeAux size₀ shift used (encodeHeaderAux c size ++ rest) =
      some (size₀ + (c + 128 * size) * 2 ^ shift, used + (encodeHeaderAux c size).length) := by
  induction k generalizing c size shift size₀ used with
  | zero => omega
  | succ k ih =>
    rw [encodeHeaderAux]
    by_cases h0 : size = 0
    · have hbyte : (UInt8.ofNat c).toNat = c := by
        rw [UInt8.toNat_ofNat']
        omega
      rw [if_pos h0, List.singleton_append, unpackSizeAux, if_neg (by omega), hbyte, if_pos hc, h0]
      rfl
    · have hbyte : (UInt8.ofNat (c + 128)).toNat = c + 128 := by
        rw [UInt8.toNat_ofNat']
        omega
      have hpow : 2 ^ (7 * (k + 1)) = 128 * 2 ^ (7 * k) := by ring
      have hk : 0 < k := by
        rcases Nat.eq_zero_or_pos k with rfl | hk
        · omega
        · exact hk
      have hmod : size % 128 + 128 * (size / 128) = size := Nat.mod_add_div size 128
      rw [if_neg h0, List.cons_append, unpackSizeAux, if_neg (by omega), hbyte, if_neg (by omega),
        ih (by omega) (Nat.mod_lt _ (by decide)) (by omega) hk, hmod, List.length_cons]
      congr 2
      · rw [show (c + 128) % 128 = c by omega, Nat.pow_add]
        ring
      · ring

theorem unpackObjectHeaderBuffer_encode {type size : Nat} (htype : type < 8) (hsize : size < 2 ^ 60)
    (rest : List UInt8) :
    unpackObjectHeaderBuffer (encodeInPackObjectHeader type size ++ rest) =
      some (type, size, (encodeInPackObjectHeader type size).length) := by
  rw [encodeInPackObjectHeader, encodeHeaderAux]
  by_cases h0 : size / 16 = 0
  · have hbyte : (UInt8.ofNat (type * 16 + size % 16)).toNat = type * 16 + size % 16 := by
      rw [UInt8.toNat_ofNat']
      omega
    rw [if_pos h0, List.singleton_append, unpackObjectHeaderBuffer, hbyte, if_pos (by omega),
      show (type * 16 + size % 16) / 16 % 8 = type by omega, show (type * 16 + size % 16) % 16 = size by omega]
    rfl
  · have hbyte : (UInt8.ofNat (type * 16 + size % 16 + 128)).toNat = type * 16 + size % 16 + 128 := by
      rw [UInt8.toNat_ofNat']
      omega
    have hmod : size / 16 % 128 + 128 * (size / 16 / 128) = size / 16 := Nat.mod_add_div (size / 16) 128
    rw [if_neg h0, List.cons_append, unpackObjectHeaderBuffer, hbyte, if_neg (by omega),
      @unpackSizeAux_encode 8 _ _ 4 (by decide) (Nat.mod_lt _ (by decide)) (by omega) (by decide), hmod,
      List.length_cons, Option.map_some, show (type * 16 + size % 16 + 128) / 16 % 8 = type by omega,
      show (type * 16 + size % 16 + 128) % 16 + size / 16 * 2 ^ 4 = size by omega, Nat.add_comm 1]

theorem readOfsDelta_encode {ofs : Nat} (hofs : ofs < 2 ^ 64) (rest : List UInt8) :
    readOfsDelta (encodeVarint ofs ++ rest) = some (ofs, rest) := by
  rw [readOfsDelta, decodeVarintAux_encodeVarint hofs, Option.join_some]

section Reading

lemma unpackSizeAux_append {size shift used : Nat} {buf : List UInt8} {r : Nat × Nat}
    (h : unpackSizeAux size shift used buf = some r) (rest : List UInt8) :
    unpackSizeAux size shift used (buf ++ rest) = some r := by
  induction buf generalizing size shift used with
  | nil => simp [unpackSizeAux] at h
  | cons c buf ih =>
    rw [unpackSizeAux] at h
    rw [List.cons_append, unpackSizeAux]
    split_ifs at h ⊢
    · exact h
    · exact ih h

variable {buf : List UInt8}

lemma unpackObjectHeaderBuffer_append {r : Nat × Nat × Nat}
    (h : unpackObjectHeaderBuffer buf = some r) (rest : List UInt8) :
    unpackObjectHeaderBuffer (buf ++ rest) = some r := by
  cases buf with
  | nil => simp [unpackObjectHeaderBuffer] at h
  | cons c buf =>
    rw [unpackObjectHeaderBuffer] at h
    rw [List.cons_append, unpackObjectHeaderBuffer]
    split_ifs at h ⊢
    · exact h
    · rw [Option.map_eq_some_iff] at h
      obtain ⟨r', hr', rfl⟩ := h
      rw [unpackSizeAux_append hr' rest, Option.map_some]

lemma decodeVarintAux_append {val : Nat} {buf : List UInt8} {ofs : Nat} {data : List UInt8}
    (h : decodeVarintAux val buf = some (some (ofs, data))) (rest : List UInt8) :
    decodeVarintAux val (buf ++ rest) = some (some (ofs, data ++ rest)) := by
  induction buf generalizing val with
  | nil =>
    rw [decodeVarintAux] at h
    split_ifs at h
    simp at h
  | cons c buf ih =>
    rw [decodeVarintAux] at h
    rw [List.cons_append, decodeVarintAux]
    split_ifs at h ⊢ with hover hlast
    · simp at h
    · simp only [Option.some_inj, Prod.mk.injEq] at h
      rw [h.1, h.2]
    · exact ih h

lemma decodeVarintAux_suffix {val : Nat} {buf : List UInt8} {ofs : Nat} {data : List UInt8}
    (h : decodeVarintAux val buf = some (some (ofs, data))) : data <:+ buf := by
  induction buf generalizing val with
  | nil =>
    rw [decodeVarintAux] at h
    split_ifs at h
    simp at h
  | cons c buf ih =>
    rw [decodeVarintAux] at h
    split_ifs at h with hover hlast
    · simp at h
    · simp only [Option.some_inj, Prod.mk.injEq] at h
      rw [← h.2]
      exact List.suffix_cons c buf
    · exact (ih h).trans (List.suffix_cons c buf)

lemma readOfsDelta_suffix {ofs : Nat} {data : List UInt8} (h : readOfsDelta buf = some (ofs, data)) :
    data <:+ buf :=
  decodeVarintAux_suffix (Option.join_eq_some_iff.mp h)

lemma readOfsDelta_append {ofs : Nat} {data : List UInt8} (h : readOfsDelta buf = some (ofs, data))
    (rest : List UInt8) : readOfsDelta (buf ++ rest) = some (ofs, data ++ rest) := by
  rw [readOfsDelta, Option.join_eq_some_iff] at h ⊢
  exact decodeVarintAux_append h rest

lemma unpackSizeAux_bounds {k size shift used : Nat} (hshift : shift + 7 * k = 60) {buf : List UInt8} {r : Nat × Nat}
    (h : unpackSizeAux size shift used buf = some r) :
    ∃ v bytes, 0 < bytes ∧ bytes ≤ k ∧ bytes ≤ buf.length ∧ v < 128 ^ bytes ∧ r = (size + v * 2 ^ shift, used + bytes) := by
  induction buf generalizing k size shift used with
  | nil => simp [unpackSizeAux] at h
  | cons c buf ih =>
    rw [unpackSizeAux] at h
    split_ifs at h with hover hlast
    · rw [← Option.some_inj.mp h]
      exact ⟨c.toNat, 1, one_pos, by omega, Nat.le_add_left 1 _, by omega, rfl⟩
    · obtain ⟨k, rfl⟩ : ∃ k', k = k' + 1 := Nat.exists_eq_add_one.mpr (by omega)
      obtain ⟨v, bytes, hpos, hle, hlen, hv, hr⟩ := ih (show shift + 7 + 7 * k = 60 by omega) h
      refine ⟨c.toNat % 128 + 128 * v, bytes + 1, Nat.succ_pos _, by omega, Nat.succ_le_succ hlen, ?_, ?_⟩
      · rw [pow_succ]
        omega
      · rw [hr, pow_add]
        refine Prod.ext ?_ ?_ <;> dsimp only <;> ring

lemma length_encodeHeaderAux_le {c size bytes : Nat} (hpos : 0 < bytes) (hvalue : c % 128 + 128 * size < 128 ^ bytes) :
    (encodeHeaderAux c size).length ≤ bytes := by
  induction bytes generalizing c size with
  | zero => omega
  | succ bytes ih =>
    rw [encodeHeaderAux]
    split_ifs with h0
    · exact Nat.succ_le_succ (Nat.zero_le _)
    · rw [pow_succ] at hvalue
      have hbytes : 0 < bytes := by
        rcases Nat.eq_zero_or_pos bytes with rfl | hbytes
        · omega
        · exact hbytes
      exact Nat.succ_le_succ (ih hbytes (by omega))

theorem unpackObjectHeaderBuffer_bounds {type size used : Nat}
    (h : unpackObjectHeaderBuffer buf = some (type, size, used)) :
    type < 8 ∧ size < 2 ^ 60 ∧ 0 < used ∧ used ≤ buf.length ∧
      ∀ type', (encodeInPackObjectHeader type' size).length ≤ used := by
  cases buf with
  | nil => simp [unpackObjectHeaderBuffer] at h
  | cons c buf =>
    rw [unpackObjectHeaderBuffer] at h
    split_ifs at h with hlast
    · simp only [Option.some_inj, Prod.mk.injEq] at h
      obtain ⟨rfl, rfl, rfl⟩ := h
      refine ⟨by omega, by omega, one_pos, Nat.le_add_left 1 _, fun type' => ?_⟩
      rw [encodeInPackObjectHeader, encodeHeaderAux, if_pos (by omega)]
      rfl
    · rw [Option.map_eq_some_iff] at h
      obtain ⟨r, hr, heq⟩ := h
      obtain ⟨v, bytes, hpos, hle, hlen, hv, rfl⟩ := unpackSizeAux_bounds (show 4 + 7 * 8 = 60 by decide) hr
      simp only [Prod.mk.injEq] at heq
      obtain ⟨rfl, rfl, rfl⟩ := heq
      have hv' : v < 2 ^ 56 := hv.trans_le ((Nat.pow_le_pow_right (by decide) hle).trans (by decide))
      refine ⟨by omega, by omega, by omega, by rw [List.length_cons]; omega, fun type' => ?_⟩
      have hdiv : (c.toNat % 16 + v * 2 ^ 4) / 16 = v := by omega
      rw [encodeInPackObjectHeader, encodeHeaderAux, hdiv]
      split_ifs with h0
      · rw [List.length_singleton]
        omega
      · rw [List.length_cons, Nat.add_comm]
        refine Nat.add_le_add_left (length_encodeHeaderAux_le hpos ?_) 1
        rw [Nat.mod_mod, Nat.mod_add_div]
        exact hv

def ofsBound : Nat → Nat
  | 0 => 0
  | k + 1 => 128 * (ofsBound k + 1)

lemma length_encodeVarintAux (value : Nat) (tail : List UInt8) :
    (encodeVarintAux value tail).length = (encodeVarintAux value []).length + tail.length := by
  have happend := encodeVarintAux_append value [] tail
  rw [List.nil_append] at happend
  rw [← happend, List.length_append]

lemma length_encodeVarint_le {value k : Nat} (h : value < ofsBound (k + 1)) : (encodeVarint value).length ≤ k + 1 := by
  rw [encodeVarint, length_encodeVarintAux, List.length_singleton]
  refine Nat.succ_le_succ ?_
  induction k generalizing value with
  | zero =>
    rw [ofsBound, ofsBound] at h
    rw [encodeVarintAux, if_pos (by omega)]
    exact Nat.zero_le _
  | succ k ih =>
    rw [encodeVarintAux]
    split_ifs with h0
    · exact Nat.zero_le _
    · rw [ofsBound] at h
      rw [length_encodeVarintAux, List.length_singleton]
      exact Nat.succ_le_succ (ih (by omega))

lemma decodeVarintAux_bounds {val k : Nat} (hval : val ≤ ofsBound k) {buf : List UInt8} {ofs : Nat} {data : List UInt8}
    (h : decodeVarintAux val buf = some (some (ofs, data))) :
    ofs < 2 ^ 64 ∧ ∃ used, 0 < used ∧ buf.length = used + data.length ∧ ofs < ofsBound (k + used) := by
  induction buf generalizing val k with
  | nil =>
    rw [decodeVarintAux] at h
    split_ifs at h
    simp at h
  | cons c buf ih =>
    rw [decodeVarintAux] at h
    split_ifs at h with hover hlast
    · simp at h
    · simp only [Option.some_inj, Prod.mk.injEq] at h
      obtain ⟨rfl, rfl⟩ := h
      refine ⟨by omega, 1, one_pos, Nat.add_comm _ _, ?_⟩
      rw [ofsBound]
      omega
    · obtain ⟨hofs, used, -, hlen, hbound⟩ := @ih (val * 128 + c.toNat % 128 + 1) (k + 1) (by rw [ofsBound]; omega) h
      refine ⟨hofs, used + 1, Nat.succ_pos _, by rw [List.length_cons, hlen]; ring, ?_⟩
      rw [show k + (used + 1) = k + 1 + used by ring]
      exact hbound

theorem readOfsDelta_bounds {ofs : Nat} {data : List UInt8} (h : readOfsDelta buf = some (ofs, data)) :
    ofs < 2 ^ 64 ∧ data.length < buf.length ∧
      ∀ ofs' ≤ ofs, (encodeVarint ofs').length + data.length ≤ buf.length := by
  rw [readOfsDelta, Option.join_eq_some_iff] at h
  obtain ⟨hofs, used, hpos, hlen, hbound⟩ := @decodeVarintAux_bounds 0 0 (Nat.zero_le _) buf ofs data h
  obtain ⟨used, rfl⟩ := Nat.exists_eq_add_one.mpr hpos
  rw [Nat.zero_add] at hbound
  refine ⟨hofs, by omega, fun ofs' hle => ?_⟩
  rw [hlen]
  exact Nat.add_le_add_right (length_encodeVarint_le (hle.trans_lt hbound)) _

end Reading

end GitCore.Pack
