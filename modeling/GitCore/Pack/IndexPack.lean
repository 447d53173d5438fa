import GitCore.Pack.Unpack

/-!
# Entry headers of index-pack and of reading

`unpack_raw_entry` of `index-pack.c` reads the header of an entry from a stream. Reading an object of the pack goes
through `unpack_object_header_buffer` and `get_delta_base` of `packfile.c`, with windows of `use_pack`.
-/

namespace GitCore.Pack

inductive BaseRef where
  | none
  | offset (base : Nat)
  | name (oid : List UInt8)

structure EntryHeader where
  type : Nat
  size : Nat
  base : BaseRef
  hdrSize : Nat

/-- The ways in which `unpack_raw_entry` dies over a header. -/
inductive BadEntry where
  | earlyEof
  | sizeTooLarge
  | offsetValueOverflow
  | offsetOutOfBound
  | unknownType (type : Nat)

/-- The loop over the bytes of the size behind `c`: the size and the bytes that are left. -/
def rawSizeLoop (c : UInt8) (size shift : Nat) : List UInt8 → Except BadEntry (Nat × List UInt8)
  | [] =>
    if c.toNat < 128 then .ok (size, [])
    else if 57 < shift then .error .sizeTooLarge
    else .error .earlyEof
  | d :: bytes =>
    if c.toNat < 128 then .ok (size, d :: bytes)
    else if 57 < shift then .error .sizeTooLarge
    else rawSizeLoop d ((size + d.toNat % 128 * 2 ^ shift % 2 ^ 64) % 2 ^ 64) (shift + 7) bytes

/-- The loop over the bytes of a distance behind `c`, with the bits of an `off_t`. -/
def rawOffsetLoop (c : UInt8) (baseOffset : Nat) : List UInt8 → Except BadEntry (Nat × List UInt8)
  | [] =>
    if c.toNat < 128 then .ok (baseOffset, [])
    else if (baseOffset + 1) % 2 ^ 64 = 0 ∨ 2 ^ 57 ≤ (baseOffset + 1) % 2 ^ 64 then .error .offsetValueOverflow
    else .error .earlyEof
  | d :: bytes =>
    if c.toNat < 128 then .ok (baseOffset, d :: bytes)
    else if (baseOffset + 1) % 2 ^ 64 = 0 ∨ 2 ^ 57 ≤ (baseOffset + 1) % 2 ^ 64 then .error .offsetValueOverflow
    else rawOffsetLoop d (((baseOffset + 1) % 2 ^ 64 * 128 + d.toNat % 128) % 2 ^ 64) bytes

def toOffT (bits : Nat) : Int := if bits < 2 ^ 63 then bits else bits - 2 ^ 64

/-- The switch over the type of an entry at `idxOffset`: the base and the bytes that are left. -/
def rawBase (rawsz idxOffset type : Nat) (bytes : List UInt8) : Except BadEntry (BaseRef × List UInt8) :=
  if type = objRefDelta then
    if bytes.length < rawsz then .error .earlyEof else .ok (.name (bytes.take rawsz), bytes.drop rawsz)
  else if type = objOfsDelta then
    match bytes with
    | [] => .error .earlyEof
    | c :: bytes => do
      let (baseOffset, bytes) ← rawOffsetLoop c (c.toNat % 128) bytes
      let ofsOffset := (idxOffset : Int) - toOffT baseOffset
      if ofsOffset ≤ 0 ∨ (idxOffset : Int) ≤ ofsOffset then .error .offsetOutOfBound
      else .ok (.offset ofsOffset.toNat, bytes)
  else if IsWhole type then .ok (.none, bytes)
  else .error (.unknownType type)

/-- The header part of `unpack_raw_entry`, for an entry at `idxOffset` of a stream with these bytes from there on. -/
def unpackRawEntry (rawsz idxOffset : Nat) : List UInt8 → Except BadEntry EntryHeader
  | [] => .error .earlyEof
  | c :: bytes => do
    let type := c.toNat / 16 % 8
    let (size, left) ← rawSizeLoop c (c.toNat % 16) 4 bytes
    let (base, left) ← rawBase rawsz idxOffset type left
    .ok ⟨type, size, base, (c :: bytes).length - left.length⟩

/-- `use_pack`: the bytes from the offset on, which it dies for where there is not one more hash. -/
def usePack (p : PackFile) (offset : Nat) : Option (List UInt8) :=
  if offset + p.rawsz ≤ p.bytes.length then some (p.bytes.drop offset) else none

/-- The type and size of an entry, the offset of its base and the length of the header. -/
structure ReadHeader where
  type : Nat
  size : Nat
  base : Option Nat
  hdrSize : Nat

/-- The header of an entry as it is read: `unpack_object_header_buffer`, and `get_delta_base` unless it is whole. -/
def readEntryHeader (p : PackFile) (offset : Nat) : Option ReadHeader := do
  let (type, size, used) ← unpackObjectHeaderBuffer (← usePack p offset)
  if IsWhole type then some ⟨type, size, none, used⟩
  else if IsDelta type then
    let _ ← usePack p (offset + used)
    let (base, curpos) ← getDeltaBase p (offset + used) type offset
    some ⟨type, size, some base, curpos - offset⟩
  else none

def EntryHeader.resolve (p : PackFile) (e : EntryHeader) : Option ReadHeader :=
  match e.base with
  | .none => some ⟨e.type, e.size, none, e.hdrSize⟩
  | .offset base => some ⟨e.type, e.size, some base, e.hdrSize⟩
  | .name oid => (p.findPackEntryOne oid).map fun base => ⟨e.type, e.size, some base, e.hdrSize⟩

variable {c : UInt8} {size shift used baseOffset rawsz offset type : Nat} {bytes : List UInt8} {p : PackFile}

lemma unpackSizeAux_used (size shift used : Nat) (buf : List UInt8) :
    unpackSizeAux size shift used buf = (unpackSizeAux size shift 0 buf).map fun r => (r.1, used + r.2) := by
  induction buf generalizing size shift used with
  | nil => rfl
  | cons c buf ih =>
    rw [unpackSizeAux, unpackSizeAux]
    split_ifs
    · rfl
    · rw [Option.map_some, Nat.zero_add]
    · rw [ih _ _ (used + 1), ih _ _ (0 + 1), Option.map_map]
      congr 1
      funext r
      simp only [Function.comp_apply, Nat.zero_add, Nat.add_assoc]

lemma rawSizeLoop_toOption (hc : ¬ c.toNat < 128) (hsize : size < 2 ^ shift) :
    (rawSizeLoop c size shift bytes).toOption =
      (unpackSizeAux size shift 0 bytes).map fun r => (r.1, bytes.drop r.2) := by
  induction bytes generalizing c size shift with
  | nil =>
    rw [rawSizeLoop, unpackSizeAux, if_neg hc]
    split_ifs <;> rfl
  | cons d bytes ih =>
    rw [rawSizeLoop, unpackSizeAux, if_neg hc]
    by_cases hover : 57 < shift
    · rw [if_pos hover, if_pos hover]
      rfl
    · have hpow : 2 ^ (shift + 7) ≤ 2 ^ 64 := Nat.pow_le_pow_right (by decide) (by omega)
      have hsplit : 2 ^ (shift + 7) = 2 ^ shift * 128 := Nat.pow_add 2 shift 7
      have hbyte : d.toNat % 128 * 2 ^ shift ≤ 127 * 2 ^ shift := Nat.mul_le_mul_right _ (by omega)
      have hnext : size + d.toNat % 128 * 2 ^ shift < 2 ^ (shift + 7) := by omega
      rw [if_neg hover, if_neg hover, Nat.mod_eq_of_lt (show d.toNat % 128 * 2 ^ shift < 2 ^ 64 by omega),
        Nat.mod_eq_of_lt (by omega)]
      by_cases hlast : d.toNat < 128
      · rw [if_pos hlast, Nat.mod_eq_of_lt hlast]
        cases bytes with
        | nil => rw [rawSizeLoop, if_pos hlast]; rfl
        | cons e bytes => rw [rawSizeLoop, if_pos hlast]; rfl
      · rw [if_neg hlast, ih hlast hnext, unpackSizeAux_used _ _ (0 + 1), Option.map_map]
        congr 1
        funext r
        simp only [Function.comp_apply, Nat.zero_add, Nat.add_comm 1, List.drop_succ_cons]

lemma overflow_iff (hbase : baseOffset < 2 ^ 64) :
    ((baseOffset + 1) % 2 ^ 64 = 0 ∨ 2 ^ 57 ≤ (baseOffset + 1) % 2 ^ 64) ↔ 2 ^ 57 ≤ baseOffset + 1 := by
  omega

lemma rawOffsetLoop_toOption (hbase : baseOffset < 2 ^ 64) :
    (rawOffsetLoop c baseOffset bytes).toOption =
      if c.toNat < 128 then some (baseOffset, bytes) else (decodeVarintAux (baseOffset + 1) bytes).join := by
  induction bytes generalizing c baseOffset with
  | nil =>
    rw [rawOffsetLoop, decodeVarintAux, if_congr (overflow_iff hbase) rfl rfl]
    split_ifs <;> rfl
  | cons d bytes ih =>
    rw [rawOffsetLoop, decodeVarintAux, if_congr (overflow_iff hbase) rfl rfl]
    by_cases hlast : c.toNat < 128
    · rw [if_pos hlast, if_pos hlast]
      rfl
    · rw [if_neg hlast, if_neg hlast]
      by_cases hover : 2 ^ 57 ≤ baseOffset + 1
      · rw [if_pos hover, if_pos hover]
        rfl
      · rw [if_neg hover, if_neg hover, Nat.mod_eq_of_lt (show baseOffset + 1 < 2 ^ 64 by omega),
          Nat.mod_eq_of_lt (by omega), ih (by omega)]
        by_cases hend : d.toNat < 128
        · rw [if_pos hend, if_pos hend, Nat.mod_eq_of_lt hend]
          rfl
        · rw [if_neg hend, if_neg hend]

lemma readOfsDelta_cons (c : UInt8) (bytes : List UInt8) :
    readOfsDelta (c :: bytes) = (rawOffsetLoop c (c.toNat % 128) bytes).toOption := by
  rw [rawOffsetLoop_toOption (by omega), readOfsDelta, decodeVarintAux, if_neg (by decide), Nat.zero_mul, Nat.zero_add,
    Nat.zero_add]
  split_ifs with hlast
  · rw [Nat.mod_eq_of_lt hlast]
    rfl
  · rfl

lemma outOfBound_iff (hoffset : offset < 2 ^ 63) {ofs : Nat} (hofs : ofs < 2 ^ 64) :
    ((offset : Int) - toOffT ofs ≤ 0 ∨ (offset : Int) ≤ (offset : Int) - toOffT ofs) ↔ ¬ (0 < ofs ∧ ofs < offset) := by
  rw [toOffT]
  split_ifs <;> omega

lemma rawBase_toOption (hoffset : offset < 2 ^ 63) :
    (rawBase rawsz offset type bytes).toOption =
      if type = objRefDelta then
        if bytes.length < rawsz then none else some (.name (bytes.take rawsz), bytes.drop rawsz)
      else if type = objOfsDelta then
        (readOfsDelta bytes).bind fun r =>
          if 0 < r.1 ∧ r.1 < offset then some (.offset (offset - r.1), r.2) else none
      else if IsWhole type then some (.none, bytes)
      else none := by
  unfold rawBase
  split_ifs with href hshort hofs hwhole
  · rfl
  · rfl
  · cases bytes with
    | nil => rfl
    | cons c bytes =>
      rw [readOfsDelta_cons]
      cases hloop : rawOffsetLoop c (c.toNat % 128) bytes with
      | error e => simp only [bind, Except.bind, hloop]; rfl
      | ok r =>
        obtain ⟨ofs, left⟩ := r
        have hread : readOfsDelta (c :: bytes) = some (ofs, left) := by
          rw [readOfsDelta_cons, hloop]
          rfl
        have hlt := (readOfsDelta_bounds hread).1
        simp only [bind, Except.bind, hloop, Except.toOption, Option.bind_some]
        rw [if_congr (outOfBound_iff hoffset hlt) rfl rfl]
        by_cases hbound : 0 < ofs ∧ ofs < offset
        · have hsub : ((offset : Int) - (ofs : Int)).toNat = offset - ofs := by omega
          rw [if_neg (not_not.mpr hbound), if_pos hbound, toOffT, if_pos (by omega), hsub]
        · rw [if_pos hbound, if_neg hbound]
  · rfl
  · rfl

lemma unpackObjectHeaderBuffer_cons (c : UInt8) (bytes : List UInt8) :
    (unpackObjectHeaderBuffer (c :: bytes)).map (fun r => (r.1, r.2.1, (c :: bytes).drop r.2.2)) =
      (rawSizeLoop c (c.toNat % 16) 4 bytes).toOption.map fun r => (c.toNat / 16 % 8, r.1, r.2) := by
  rw [unpackObjectHeaderBuffer]
  by_cases hlast : c.toNat < 128
  · rw [if_pos hlast]
    cases bytes with
    | nil => rw [rawSizeLoop, if_pos hlast]; rfl
    | cons d bytes => rw [rawSizeLoop, if_pos hlast]; rfl
  · rw [if_neg hlast, rawSizeLoop_toOption hlast (show c.toNat % 16 < 2 ^ 4 by omega), unpackSizeAux_used _ _ 1,
      Option.map_map, Option.map_map, Option.map_map]
    congr 1
    funext r
    simp only [Function.comp_apply, Nat.add_comm 1, List.drop_succ_cons]

lemma unpackRawEntry_toOption (rawsz offset : Nat) (bytes : List UInt8) :
    (unpackRawEntry rawsz offset bytes).toOption =
      (unpackObjectHeaderBuffer bytes).bind fun r =>
        (rawBase rawsz offset r.1 (bytes.drop r.2.2)).toOption.map fun b =>
          ⟨r.1, r.2.1, b.1, bytes.length - b.2.length⟩ := by
  cases bytes with
  | nil => rfl
  | cons c bytes =>
    have hcons := unpackObjectHeaderBuffer_cons c bytes
    rw [unpackRawEntry]
    cases hsize : rawSizeLoop c (c.toNat % 16) 4 bytes with
    | error e =>
      rw [hsize] at hcons
      rw [Option.map_eq_none_iff.mp hcons]
      rfl
    | ok r =>
      rw [hsize] at hcons
      obtain ⟨r', hread, heq⟩ := Option.map_eq_some_iff.mp hcons
      obtain ⟨type, size, used⟩ := r'
      simp only [Prod.mk.injEq] at heq
      rw [hread, Option.bind_some]
      simp only [bind, Except.bind]
      rw [heq.1, heq.2.1, heq.2.2]
      cases hbase : rawBase rawsz offset (c.toNat / 16 % 8) r.2 with
      | error e => rfl
      | ok b => rfl

lemma usePack_eq_some (p : PackFile) (h : offset + p.rawsz ≤ p.bytes.length) :
    usePack p offset = some (p.bytes.drop offset) := if_pos h

lemma not_whole_ofsDelta : ¬ IsWhole objOfsDelta := by decide

lemma not_whole_refDelta : ¬ IsWhole objRefDelta := by decide

lemma readEntryHeader_eq {size used : Nat} (hoffset : offset < 2 ^ 63) (hfirst : offset + p.rawsz ≤ p.bytes.length)
    (hread : unpackObjectHeaderBuffer (p.bytes.drop offset) = some (type, size, used))
    (hsecond : IsDelta type → offset + used + p.rawsz ≤ p.bytes.length) :
    readEntryHeader p offset =
      (unpackRawEntry p.rawsz offset (p.bytes.drop offset)).toOption.bind (EntryHeader.resolve p) := by
  obtain ⟨-, -, -, hused, -⟩ := unpackObjectHeaderBuffer_bounds hread
  rw [List.length_drop] at hused
  rw [unpackRawEntry_toOption, hread, Option.bind_some, rawBase_toOption hoffset, List.drop_drop, List.length_drop,
    List.length_drop, readEntryHeader]
  simp only [bind, usePack_eq_some p hfirst, hread, Option.bind_some]
  by_cases hwhole : IsWhole type
  · have hnref : type ≠ objRefDelta := fun h => not_whole_refDelta (h ▸ hwhole)
    have hnofs : type ≠ objOfsDelta := fun h => not_whole_ofsDelta (h ▸ hwhole)
    rw [if_pos hwhole, if_neg hnref, if_neg hnofs, if_pos hwhole, Option.map_some, Option.bind_some, EntryHeader.resolve]
    congr 2
    simp only [List.length_drop]
    omega
  · rw [if_neg hwhole]
    by_cases hdelta : IsDelta type
    · have hroom := hsecond hdelta
      rw [if_pos hdelta, usePack_eq_some p hroom, Option.bind_some]
      rcases hdelta with hofs | href
      · have hnref : type ≠ objRefDelta := fun h => absurd (hofs.symm.trans h) (by decide)
        rw [if_neg hnref, if_pos hofs, getDeltaBase, if_pos hofs]
        cases hdist : readOfsDelta (p.bytes.drop (offset + used)) with
        | none => rfl
        | some r =>
          have hlen : r.2.length < (p.bytes.drop (offset + used)).length := (readOfsDelta_bounds hdist).2.1
          rw [List.length_drop] at hlen
          simp only [Option.bind_some]
          by_cases hbound : 0 < r.1 ∧ r.1 < offset
          · rw [if_pos hbound, if_pos hbound, Option.bind_some, Option.map_some, Option.bind_some, EntryHeader.resolve]
            congr 2
            simp only []
            omega
          · rw [if_neg hbound, if_neg hbound]
            rfl
      · have hnofs : type ≠ objOfsDelta := fun h => absurd (href.symm.trans h) (by decide)
        rw [if_pos href, if_neg (by omega), getDeltaBase, if_neg hnofs, Option.map_some, Option.bind_some,
          EntryHeader.resolve]
        simp only [List.length_drop]
        cases p.findPackEntryOne ((p.bytes.drop (offset + used)).take p.rawsz) with
        | none => rfl
        | some base =>
          rw [Option.map_some, Option.bind_some, Option.map_some]
          congr 2
          omega
    · have hnref : type ≠ objRefDelta := fun h => hdelta (.inr h)
      have hnofs : type ≠ objOfsDelta := fun h => hdelta (.inl h)
      rw [if_neg hdelta, if_neg hnref, if_neg hnofs, if_neg hwhole]
      rfl

lemma toOption_eq_some {e : EntryHeader} :
    (unpackRawEntry rawsz offset bytes).toOption = some e ↔ unpackRawEntry rawsz offset bytes = .ok e := by
  cases unpackRawEntry rawsz offset bytes with
  | error bad =>
    constructor
    · intro h
      cases h
    · intro h
      cases h
  | ok e' =>
    constructor
    · intro h
      rw [Option.some.inj h]
    · intro h
      rw [Except.ok.inj h]
      rfl

lemma rawBase_left_le (hoffset : offset < 2 ^ 63) {b : BaseRef × List UInt8}
    (h : (rawBase rawsz offset type bytes).toOption = some b) : b.2.length ≤ bytes.length := by
  rw [rawBase_toOption hoffset] at h
  split_ifs at h
  · rw [← Option.some.inj h]
    exact (List.drop_suffix _ _).length_le
  · obtain ⟨r, hread, hb⟩ := Option.bind_eq_some_iff.mp h
    split_ifs at hb
    rw [← Option.some.inj hb]
    exact (readOfsDelta_suffix hread).length_le
  · rw [← Option.some.inj h]

lemma unpackRawEntry_of_readEntryHeader (hoffset : offset < 2 ^ 63) {r : ReadHeader}
    (h : readEntryHeader p offset = some r) :
    ∃ e, unpackRawEntry p.rawsz offset (p.bytes.drop offset) = .ok e ∧ e.resolve p = some r := by
  have hcopy := h
  rw [readEntryHeader] at hcopy
  simp only [bind, Option.bind_eq_some_iff] at hcopy
  obtain ⟨buf, hbuf, ⟨type, size, used⟩, hread, hcopy⟩ := hcopy
  rw [usePack] at hbuf
  split_ifs at hbuf with hfirst
  rw [← Option.some.inj hbuf] at hread
  have hsecond : IsDelta type → offset + used + p.rawsz ≤ p.bytes.length := fun hdelta => by
    have hnot : ¬ IsWhole type := fun hwhole => hdelta.elim (fun h => not_whole_ofsDelta (h ▸ hwhole))
      fun h => not_whole_refDelta (h ▸ hwhole)
    simp only [if_neg hnot, if_pos hdelta, Option.bind_eq_some_iff] at hcopy
    obtain ⟨base, hbase, -⟩ := hcopy
    rw [usePack] at hbase
    split_ifs at hbase with hroom
    exact hroom
  rw [readEntryHeader_eq hoffset hfirst hread hsecond, Option.bind_eq_some_iff] at h
  obtain ⟨e, he, hr⟩ := h
  exact ⟨e, toOption_eq_some.mp he, hr⟩

lemma readEntryHeader_of_unpackRawEntry (hoffset : offset < 2 ^ 63) {e : EntryHeader}
    (h : unpackRawEntry p.rawsz offset (p.bytes.drop offset) = .ok e)
    (hroom : offset + e.hdrSize + p.rawsz ≤ p.bytes.length) : readEntryHeader p offset = e.resolve p := by
  have hcopy := toOption_eq_some.mpr h
  rw [unpackRawEntry_toOption, Option.bind_eq_some_iff] at hcopy
  obtain ⟨⟨type, size, used⟩, hread, hbase⟩ := hcopy
  obtain ⟨⟨base, left⟩, hbase, he⟩ := Option.map_eq_some_iff.mp hbase
  have hused : used ≤ e.hdrSize := by
    have hleft := rawBase_left_le hoffset hbase
    have hlen := (unpackObjectHeaderBuffer_bounds hread).2.2.2.1
    rw [List.length_drop] at hleft
    rw [← he]
    simp only []
    simp only [] at hleft
    omega
  rw [readEntryHeader_eq hoffset (by omega) hread fun _ => by omega, h]
  rfl

/-- The bytes between the type and size of an entry and its data, as `write_no_reuse_object` writes them. -/
def encodeBase (offset : Nat) : BaseRef → List UInt8
  | .none => []
  | .offset base => encodeVarint (offset - base)
  | .name oid => oid

def noReuseHeader (offset type size : Nat) (base : BaseRef) : List UInt8 :=
  encodeInPackObjectHeader type size ++ encodeBase offset base

/-- The base that goes with a type; a distance is positive and smaller than the offset of the entry. -/
def BaseRef.Fits (rawsz offset type : Nat) : BaseRef → Prop
  | .none => IsWhole type
  | .offset base => type = objOfsDelta ∧ 0 < base ∧ base < offset
  | .name oid => type = objRefDelta ∧ oid.length = rawsz

lemma unpackRawEntry_noReuseHeader (hoffset : offset < 2 ^ 63) {size : Nat} {base : BaseRef}
    (hbase : base.Fits rawsz offset type) (hsize : size < 2 ^ 60) (rest : List UInt8) :
    unpackRawEntry rawsz offset (noReuseHeader offset type size base ++ rest) =
      .ok ⟨type, size, base, (noReuseHeader offset type size base).length⟩ := by
  have htype : type < 8 := by
    cases base with
    | none => exact hbase.2.trans_lt (by decide)
    | offset base => rw [hbase.1]; decide
    | name oid => rw [hbase.1]; decide
  rw [← toOption_eq_some, unpackRawEntry_toOption, noReuseHeader, List.append_assoc,
    unpackObjectHeaderBuffer_encode htype hsize, Option.bind_some, List.drop_left, rawBase_toOption hoffset]
  simp only []
  cases base with
  | none =>
    have hnref : type ≠ objRefDelta := fun h => not_whole_refDelta (h ▸ hbase)
    have hnofs : type ≠ objOfsDelta := fun h => not_whole_ofsDelta (h ▸ hbase)
    have hwhole : IsWhole type := hbase
    rw [if_neg hnref, if_neg hnofs, if_pos hwhole]
    simp [encodeBase]
  | offset base =>
    obtain ⟨rfl, hpos, hlt⟩ := hbase
    rw [if_neg (by decide), if_pos rfl, encodeBase, readOfsDelta_encode (by omega)]
    simp only [Option.bind_some]
    rw [if_pos (by omega), Option.map_some]
    simp
    omega
  | name oid =>
    obtain ⟨rfl, hlen⟩ := hbase
    have hlong : ¬ (oid ++ rest).length < oid.length := by
      rw [List.length_append]
      omega
    rw [if_pos rfl, encodeBase, ← hlen, if_neg hlong, List.take_left, List.drop_left, Option.map_some]
    simp
    omega

lemma not_elsewhere (_offset type : Nat) (data : List UInt8) (h : (none : Option (Nat × List UInt8)) = some (type, data)) :
    IsWhole type := absurd h.symm (Option.some_ne_none _)

def bytesOnly (bytes : List UInt8) (rawsz : Nat) : PackFile where
  bytes := bytes
  inflate _ := none
  rawsz := rawsz
  findPackEntryOne _ := none
  crcOk _ := true
  readElsewhere _ := none
  elsewhere_whole := not_elsewhere

end GitCore.Pack
