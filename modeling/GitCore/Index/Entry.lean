import GitCore.Lib.Wire

/-!
# Index entries on disk

`copy_cache_entry_to_ondisk`, `ce_write_entry` and `create_from_disk` of `read-cache.c`. A pointer
into the mapped file is the list of the bytes from there on.
-/

namespace GitCore.Index

def CE_NAMEMASK : UInt32 := 0x0fff

def CE_STAGEMASK : UInt32 := 0x3000

def CE_EXTENDED : UInt32 := 0x4000

def CE_VALID : UInt32 := 0x8000

def CE_REMOVE : UInt32 := 0x20000

def CE_INTENT_TO_ADD : UInt32 := 0x20000000

def CE_SKIP_WORKTREE : UInt32 := 0x40000000

def CE_EXTENDED_FLAGS : UInt32 := CE_INTENT_TO_ADD ||| CE_SKIP_WORKTREE

structure StatData where
  ctimeSec : UInt32
  ctimeNsec : UInt32
  mtimeSec : UInt32
  mtimeNsec : UInt32
  dev : UInt32
  ino : UInt32
  uid : UInt32
  gid : UInt32
  size : UInt32
  deriving DecidableEq

/-- `struct cache_entry`; `ce_namelen` is the length of the name. -/
structure CacheEntry where
  ceStatData : StatData
  ceMode : UInt32
  ceFlags : UInt32
  oid : List UInt8
  name : List UInt8
  deriving DecidableEq

/-- `offsetof(struct ondisk_cache_entry, data)` -/
def ondiskData : Nat := 40

/-- `offsetof(struct ondisk_cache_entry, data) + ondisk_data_size(flags, 0)` -/
def ondiskSize (hashsz : Nat) (flags : UInt32) : Nat :=
  ondiskData + hashsz + if flags &&& CE_EXTENDED ≠ 0 then 4 else 2

def alignPaddingSize (size len : Nat) : Nat :=
  (size + len + 8) / 8 * 8 - (size + len)

def ondiskCeSize (hashsz : Nat) (flags : UInt32) (len : Nat) : Nat :=
  (ondiskSize hashsz flags + len + 8) / 8 * 8

def storedNamelen (len : Nat) : UInt32 :=
  if CE_NAMEMASK.toNat ≤ len then CE_NAMEMASK else UInt32.ofNat len

/-- `flagsp[0]` -/
def ondiskFlags (flags : UInt32) (len : Nat) : UInt16 :=
  (flags &&& ~~~CE_NAMEMASK).toUInt16 ||| (storedNamelen len).toUInt16

def copyCacheEntryToOndisk (ce : CacheEntry) : List UInt8 :=
  putBe32 ce.ceStatData.ctimeSec ++ (putBe32 ce.ceStatData.ctimeNsec ++ (putBe32 ce.ceStatData.mtimeSec ++
    (putBe32 ce.ceStatData.mtimeNsec ++ (putBe32 ce.ceStatData.dev ++ (putBe32 ce.ceStatData.ino ++
    (putBe32 ce.ceMode ++ (putBe32 ce.ceStatData.uid ++ (putBe32 ce.ceStatData.gid ++
    (putBe32 ce.ceStatData.size ++ (ce.oid ++ (putBe16 (ondiskFlags ce.ceFlags ce.name.length) ++
    if ce.ceFlags &&& CE_EXTENDED ≠ 0 then putBe16 ((ce.ceFlags &&& CE_EXTENDED_FLAGS) >>> 16).toUInt16 else [])))))))))))

def commonPrefix : List UInt8 → List UInt8 → Nat
  | p :: previous, c :: name => if c ≠ 0 ∧ c = p then commonPrefix previous name + 1 else 0
  | _, _ => 0

def ceWriteEntry (hashsz : Nat) (ce : CacheEntry) (previousName : Option (List UInt8)) :
    List UInt8 × Option (List UInt8) :=
  match previousName with
  | none =>
    (copyCacheEntryToOndisk ce ++ (ce.name ++
      List.replicate (alignPaddingSize (ondiskSize hashsz ce.ceFlags) ce.name.length) 0), none)
  | some previous =>
    let common := commonPrefix previous ce.name
    let toRemove := previous.length - common
    (copyCacheEntryToOndisk ce ++ (encodeVarint toRemove ++ (ce.name.drop common ++ [0])),
      some (previous.take common ++ ce.name.drop common))

def strlen (s : List UInt8) : Option Nat :=
  if s.idxOf 0 < s.length then some (s.idxOf 0) else none

def readFlags (hashsz : Nat) (ondisk : List UInt8) : Option (UInt32 × List UInt8) :=
  let flagsp := ondiskData + hashsz
  match getBe16 ondisk flagsp with
  | none => none
  | some flags =>
    if flags.toUInt32 &&& CE_EXTENDED ≠ 0 then
      match getBe16 ondisk (flagsp + 2) with
      | none => none
      | some extended =>
        let extendedFlags := extended.toUInt32 <<< 16
        if extendedFlags &&& ~~~CE_EXTENDED_FLAGS ≠ 0 then none
        else some (flags.toUInt32 ||| extendedFlags, ondisk.drop (flagsp + 4))
    else some (flags.toUInt32, ondisk.drop (flagsp + 2))

/-- How much of the previous name is kept in version 4, and the pointer to the rest of the name. -/
def readCopyLen (version : Nat) (name : List UInt8) (previousCe : Option CacheEntry) : Option (Nat × List UInt8) :=
  if version = 4 then
    match decodeVarint name with
    | none => none
    | some (stripLen, name) =>
      match previousCe with
      | none => some (0, name)
      | some previous =>
        if previous.name.length < stripLen then none else some (previous.name.length - stripLen, name)
  else some (0, name)

def readNamelen (flags : UInt32) (copyLen : Nat) (name : List UInt8) : Option Nat :=
  if flags &&& CE_NAMEMASK = CE_NAMEMASK then (strlen name).map (fun len => len + copyLen)
  else some (flags &&& CE_NAMEMASK).toNat

def readStat (ondisk : List UInt8) : Option (StatData × UInt32) :=
  match getBe32 ondisk 0, getBe32 ondisk 4, getBe32 ondisk 8, getBe32 ondisk 12, getBe32 ondisk 16,
    getBe32 ondisk 20, getBe32 ondisk 24, getBe32 ondisk 28, getBe32 ondisk 32, getBe32 ondisk 36 with
  | some ctimeSec, some ctimeNsec, some mtimeSec, some mtimeNsec, some dev, some ino, some mode, some uid,
      some gid, some size => some (⟨ctimeSec, ctimeNsec, mtimeSec, mtimeNsec, dev, ino, uid, gid, size⟩, mode)
  | _, _, _, _, _, _, _, _, _, _ => none

/-- `create_from_disk`: the entry and its size; `none` if it dies or reads behind the last byte. -/
def createFromDisk (hashsz version : Nat) (ondisk : List UInt8) (previousCe : Option CacheEntry) :
    Option (CacheEntry × Nat) :=
  match readFlags hashsz ondisk with
  | none => none
  | some (flags, name) =>
    match readCopyLen version name previousCe with
    | none => none
    | some (copyLen, name) =>
      match readNamelen flags copyLen name, readStat ondisk with
      | some len, some (statData, mode) =>
        if len < copyLen ∨ name.length < len + 1 - copyLen then none
        else
          let copied := (previousCe.map (fun previous => previous.name.take copyLen)).getD []
          let ce : CacheEntry :=
            { ceStatData := statData, ceMode := mode, ceFlags := flags &&& ~~~CE_NAMEMASK,
              oid := (ondisk.drop ondiskData).take hashsz, name := copied ++ name.take (len - copyLen) }
          some (ce,
            if version = 4 then ondisk.length - name.length + (len + 1 - copyLen)
            else ondiskCeSize hashsz ce.ceFlags len)
      | _, _ => none

end GitCore.Index

/-!
# An entry is read back

`create_from_disk` reads what `ce_write_entry` has written, whatever bytes follow.
-/

namespace GitCore.Index

def onDiskFlags : UInt32 := CE_STAGEMASK ||| CE_EXTENDED ||| CE_VALID ||| CE_EXTENDED_FLAGS

def CacheEntry.onDisk (ce : CacheEntry) : CacheEntry :=
  { ce with ceFlags := ce.ceFlags &&& onDiskFlags }

/-- An entry that can be stored: the length of the name is an `int`. -/
structure StorableEntry (hashsz : Nat) (ce : CacheEntry) : Prop where
  oid : ce.oid.length = hashsz
  name : 0 ∉ ce.name
  namelen : ce.name.length < 2 ^ 31

structure WellFormedEntry (hashsz : Nat) (ce : CacheEntry) : Prop extends StorableEntry hashsz ce where
  extended : ce.ceFlags &&& CE_EXTENDED ≠ 0 ↔ ce.ceFlags &&& CE_EXTENDED_FLAGS ≠ 0

lemma storedNamelen_toNat (len : Nat) : (storedNamelen len).toNat = min len 0xfff := by
  unfold storedNamelen
  have hmask : CE_NAMEMASK.toNat = 0xfff := rfl
  split_ifs with h
  · omega
  · rw [UInt32.toNat_ofNat']
    omega

lemma storedNamelen_bit (len : Nat) {i : Nat} (hi : 12 ≤ i) : (storedNamelen len).toBitVec.getLsbD i = false := by
  have hlt : (storedNamelen len).toBitVec.toNat < 2 ^ 12 := by
    have := storedNamelen_toNat len
    change (storedNamelen len).toNat < 2 ^ 12
    omega
  rw [BitVec.getLsbD]
  exact Nat.testBit_lt_two_pow (hlt.trans_le (Nat.pow_le_pow_right (by norm_num) hi))

section

variable (flags : UInt32) (len : Nat)

lemma ondiskFlags_bits (i : Nat) (hi : i < 32) :
    (ondiskFlags flags len).toUInt32.toBitVec[i] =
      (decide (i < 16) && ((decide (12 ≤ i) && flags.toBitVec[i]) || (storedNamelen len).toBitVec[i])) := by
  simp only [ondiskFlags, CE_NAMEMASK, UInt16.toBitVec_toUInt32, UInt16.toBitVec_or, UInt32.toBitVec_toUInt16,
    UInt32.toBitVec_and, UInt32.toBitVec_not]
  interval_cases i <;> simp

lemma ondiskFlags_namelen : (ondiskFlags flags len).toUInt32 &&& CE_NAMEMASK = storedNamelen len := by
  apply UInt32.eq_of_toBitVec_eq
  ext i hi
  rw [UInt32.toBitVec_and, BitVec.getElem_and, ondiskFlags_bits flags len i hi]
  have hbit := fun h : 12 ≤ i => storedNamelen_bit len h
  simp only [CE_NAMEMASK]
  interval_cases i <;> simp_all

lemma ondiskFlags_extended :
    (ondiskFlags flags len).toUInt32 &&& CE_EXTENDED = flags &&& CE_EXTENDED := by
  apply UInt32.eq_of_toBitVec_eq
  ext i hi
  rw [UInt32.toBitVec_and, BitVec.getElem_and, ondiskFlags_bits flags len i hi, UInt32.toBitVec_and,
    BitVec.getElem_and]
  have hbit := fun h : 12 ≤ i => storedNamelen_bit len h
  simp only [CE_EXTENDED]
  interval_cases i <;> simp_all

lemma ondiskFlags_stored : (ondiskFlags flags len).toUInt32 &&& ~~~CE_NAMEMASK ||| flags &&& CE_EXTENDED_FLAGS =
    flags &&& onDiskFlags := by
  apply UInt32.eq_of_toBitVec_eq
  ext i hi
  rw [UInt32.toBitVec_or, BitVec.getElem_or, UInt32.toBitVec_and, BitVec.getElem_and, ondiskFlags_bits flags len i hi,
    UInt32.toBitVec_and, UInt32.toBitVec_and, BitVec.getElem_and, BitVec.getElem_and, UInt32.toBitVec_not]
  have hbit := fun h : 12 ≤ i => storedNamelen_bit len h
  simp only [CE_NAMEMASK, onDiskFlags, CE_STAGEMASK, CE_EXTENDED, CE_VALID, CE_EXTENDED_FLAGS, CE_INTENT_TO_ADD,
    CE_SKIP_WORKTREE]
  interval_cases i <;> simp_all

lemma extendedFlags_shift :
    ((flags &&& CE_EXTENDED_FLAGS) >>> 16).toUInt16.toUInt32 <<< 16 = flags &&& CE_EXTENDED_FLAGS := by
  apply UInt32.eq_of_toBitVec_eq
  simp only [CE_EXTENDED_FLAGS, CE_INTENT_TO_ADD, CE_SKIP_WORKTREE, UInt32.toBitVec_and, UInt32.toBitVec_shiftLeft,
    UInt16.toBitVec_toUInt32, UInt32.toBitVec_toUInt16, UInt32.toBitVec_shiftRight]
  have h16 : (16 : UInt32).toBitVec % 32 = 16#32 := by decide
  rw [h16, BitVec.shiftLeft_eq', BitVec.ushiftRight_eq']
  generalize flags.toBitVec = bits
  ext i hi
  simp only [BitVec.getElem_shiftLeft, BitVec.toNat_ofNat]
  interval_cases i <;> simp

lemma extendedFlags_known : flags &&& CE_EXTENDED_FLAGS &&& ~~~CE_EXTENDED_FLAGS = 0 := by
  rw [UInt32.and_assoc, UInt32.and_not_self, UInt32.and_zero]

lemma or_extended_namelen (word : UInt32) :
    (word ||| flags &&& CE_EXTENDED_FLAGS) &&& CE_NAMEMASK = word &&& CE_NAMEMASK ∧
      (word ||| flags &&& CE_EXTENDED_FLAGS) &&& ~~~CE_NAMEMASK =
        word &&& ~~~CE_NAMEMASK ||| flags &&& CE_EXTENDED_FLAGS := by
  constructor
  all_goals
    apply UInt32.eq_of_toBitVec_eq
    simp only [UInt32.toBitVec_or, UInt32.toBitVec_and, UInt32.toBitVec_not, CE_NAMEMASK, CE_EXTENDED_FLAGS,
      CE_INTENT_TO_ADD, CE_SKIP_WORKTREE]
    generalize flags.toBitVec = bits
    generalize word.toBitVec = word
    ext i hi
    simp only [BitVec.getElem_or, BitVec.getElem_and, BitVec.getElem_not]
    interval_cases i <;> simp

end

lemma readStat_spec (ce : CacheEntry) (rest : List UInt8) :
    readStat (copyCacheEntryToOndisk ce ++ rest) = some (ce.ceStatData, ce.ceMode) := by
  simp only [readStat, copyCacheEntryToOndisk, List.append_assoc, getBe32_put, getBe32_skip]

def ondiskWords (ce : CacheEntry) : List UInt8 :=
  putBe32 ce.ceStatData.ctimeSec ++ (putBe32 ce.ceStatData.ctimeNsec ++ (putBe32 ce.ceStatData.mtimeSec ++
    (putBe32 ce.ceStatData.mtimeNsec ++ (putBe32 ce.ceStatData.dev ++ (putBe32 ce.ceStatData.ino ++
    (putBe32 ce.ceMode ++ (putBe32 ce.ceStatData.uid ++ (putBe32 ce.ceStatData.gid ++
    putBe32 ce.ceStatData.size))))))))

def extendedWord (flags : UInt32) : List UInt8 :=
  if flags &&& CE_EXTENDED ≠ 0 then putBe16 ((flags &&& CE_EXTENDED_FLAGS) >>> 16).toUInt16 else []

lemma copyCacheEntryToOndisk_eq (ce : CacheEntry) :
    copyCacheEntryToOndisk ce = ondiskWords ce ++ (ce.oid ++
      (putBe16 (ondiskFlags ce.ceFlags ce.name.length) ++ extendedWord ce.ceFlags)) := by
  simp only [copyCacheEntryToOndisk, ondiskWords, extendedWord, List.append_assoc]

lemma length_ondiskWords (ce : CacheEntry) : (ondiskWords ce).length = ondiskData := by
  simp [ondiskWords, ondiskData]

section

variable {hashsz : Nat} {ce : CacheEntry}

lemma length_copyCacheEntryToOndisk (h : WellFormedEntry hashsz ce) :
    (copyCacheEntryToOndisk ce).length = ondiskSize hashsz ce.ceFlags := by
  rw [copyCacheEntryToOndisk_eq, ondiskSize, extendedWord]
  simp only [List.length_append, length_ondiskWords, h.oid, length_putBe16]
  split_ifs <;> simp [Nat.add_assoc]

lemma oid_spec (h : WellFormedEntry hashsz ce) (rest : List UInt8) :
    ((copyCacheEntryToOndisk ce ++ rest).drop ondiskData).take hashsz = ce.oid := by
  rw [copyCacheEntryToOndisk_eq, List.append_assoc, List.append_assoc, ← length_ondiskWords ce, List.drop_left,
    ← h.oid, List.take_left]

lemma readFlags_spec (h : WellFormedEntry hashsz ce) (rest : List UInt8) :
    ∃ flags, readFlags hashsz (copyCacheEntryToOndisk ce ++ rest) = some (flags, rest) ∧
      flags &&& CE_NAMEMASK = storedNamelen ce.name.length ∧ flags &&& ~~~CE_NAMEMASK = ce.onDisk.ceFlags := by
  have hpos : ondiskData + hashsz = (ondiskWords ce ++ ce.oid).length := by
    rw [List.length_append, length_ondiskWords, h.oid]
  have hsplit : copyCacheEntryToOndisk ce ++ rest = (ondiskWords ce ++ ce.oid) ++
      (putBe16 (ondiskFlags ce.ceFlags ce.name.length) ++ (extendedWord ce.ceFlags ++ rest)) := by
    simp only [copyCacheEntryToOndisk_eq, List.append_assoc]
  have hdrop : (copyCacheEntryToOndisk ce ++ rest).drop (ondiskData + hashsz + 2) = extendedWord ce.ceFlags ++ rest := by
    rw [hsplit, hpos, ← List.drop_drop, List.drop_left]
    rfl
  have hfirst : getBe16 (copyCacheEntryToOndisk ce ++ rest) (ondiskData + hashsz) =
      some (ondiskFlags ce.ceFlags ce.name.length) := by
    rw [hsplit, getBe16_at hpos]
  simp only [readFlags, hfirst, ondiskFlags_extended]
  by_cases hext : ce.ceFlags &&& CE_EXTENDED ≠ 0
  · have hword : extendedWord ce.ceFlags = putBe16 ((ce.ceFlags &&& CE_EXTENDED_FLAGS) >>> 16).toUInt16 := if_pos hext
    have hsecond : getBe16 (copyCacheEntryToOndisk ce ++ rest) (ondiskData + hashsz + 2) =
        some ((ce.ceFlags &&& CE_EXTENDED_FLAGS) >>> 16).toUInt16 := by
      have hsplit' : copyCacheEntryToOndisk ce ++ rest = (ondiskWords ce ++ ce.oid ++
          putBe16 (ondiskFlags ce.ceFlags ce.name.length)) ++
          (putBe16 ((ce.ceFlags &&& CE_EXTENDED_FLAGS) >>> 16).toUInt16 ++ rest) := by
        rw [hsplit, hword, List.append_assoc (ondiskWords ce ++ ce.oid)]
      have hpos' : ondiskData + hashsz + 2 = (ondiskWords ce ++ ce.oid ++
          putBe16 (ondiskFlags ce.ceFlags ce.name.length)).length := by
        rw [List.length_append, ← hpos, length_putBe16]
      rw [hsplit', getBe16_at hpos']
    have hrest : (copyCacheEntryToOndisk ce ++ rest).drop (ondiskData + hashsz + 4) = rest := by
      have : ondiskData + hashsz + 4 = (ondiskData + hashsz + 2) + 2 := rfl
      rw [this, ← List.drop_drop, hdrop, hword]
      rfl
    rw [if_pos hext]
    simp only [hsecond, extendedFlags_shift, extendedFlags_known, ne_eq, not_true_eq_false, if_false, hrest]
    obtain ⟨hlen, hflags⟩ := or_extended_namelen ce.ceFlags (ondiskFlags ce.ceFlags ce.name.length).toUInt32
    refine ⟨_, rfl, ?_, ?_⟩
    · rw [hlen, ondiskFlags_namelen]
    · rw [hflags, ondiskFlags_stored]
      rfl
  · have hnone : ce.ceFlags &&& CE_EXTENDED_FLAGS = 0 := by
      by_contra hne
      exact hext (h.extended.mpr hne)
    rw [if_neg hext, hdrop, extendedWord, if_neg hext]
    refine ⟨_, rfl, ondiskFlags_namelen _ _, ?_⟩
    have := ondiskFlags_stored ce.ceFlags ce.name.length
    rw [hnone, UInt32.or_zero] at this
    exact this

lemma commonPrefix_le (previous name : List UInt8) :
    commonPrefix previous name ≤ previous.length ∧ commonPrefix previous name ≤ name.length ∧
      previous.take (commonPrefix previous name) = name.take (commonPrefix previous name) := by
  induction previous generalizing name with
  | nil => simp [commonPrefix]
  | cons p previous ih =>
    cases name with
    | nil => simp [commonPrefix]
    | cons c name =>
      rw [commonPrefix]
      split_ifs with hc
      · obtain ⟨hp, hn, htake⟩ := ih name
        simp only [List.length_cons, List.take_succ_cons, htake, hc.2]
        exact ⟨by omega, by omega, trivial⟩
      · simp

lemma strlen_append {name rest : List UInt8} (h : 0 ∉ name) : strlen (name ++ 0 :: rest) = some name.length := by
  have hidx : (name ++ 0 :: rest).idxOf 0 = name.length := by
    rw [List.idxOf_append_of_notMem h, List.idxOf_cons_self, Nat.add_zero]
  simp [strlen, hidx]

lemma readNamelen_spec {flags : UInt32} {copyLen : Nat} {tail rest : List UInt8} {len : Nat}
    (hflags : flags &&& CE_NAMEMASK = storedNamelen len) (hlen : tail.length + copyLen = len) (htail : 0 ∉ tail) :
    readNamelen flags copyLen (tail ++ 0 :: rest) = some len := by
  unfold readNamelen
  rw [hflags]
  by_cases hlong : CE_NAMEMASK.toNat ≤ len
  · have : storedNamelen len = CE_NAMEMASK := if_pos hlong
    rw [if_pos this, strlen_append htail, Option.map_some, hlen]
  · have hstored : storedNamelen len = UInt32.ofNat len := if_neg hlong
    have hmask : CE_NAMEMASK.toNat = 0xfff := rfl
    have hnat : (storedNamelen len).toNat = len := by
      rw [storedNamelen_toNat]
      omega
    rw [if_neg, hnat]
    intro heq
    rw [heq] at hnat
    omega

/-- What the reader knows of the previous entry agrees with what the writer has kept: the name, or
one of its length that has nothing in common with any name. -/
def PreviousAgrees (previousName : Option (List UInt8)) (previousCe : Option CacheEntry) : Prop :=
  ∀ previous, previousName = some previous →
    match previousCe with
    | none => previous = [] ∨ previous.head? = some 0
    | some ce => previous.length = ce.name.length ∧ (previous = ce.name ∨ previous.head? = some 0)

lemma commonPrefix_blank {previous : List UInt8} (h : previous = [] ∨ previous.head? = some 0) (name : List UInt8) :
    commonPrefix previous name = 0 := by
  cases previous with
  | nil => simp [commonPrefix]
  | cons p previous =>
    obtain h | h := h
    · cases h
    · rw [List.head?_cons, Option.some_inj] at h
      subst h
      cases name with
      | nil => rfl
      | cons c name =>
        rw [commonPrefix, if_neg]
        rintro ⟨hne, heq⟩
        exact hne heq

def Compressed (version : Nat) (previousName : Option (List UInt8)) : Prop :=
  previousName.isSome ↔ version = 4

lemma ceWriteEntry_compressed {version : Nat} {previousName : Option (List UInt8)}
    (h : Compressed version previousName) : Compressed version (ceWriteEntry hashsz ce previousName).2 := by
  cases previousName with
  | none => exact h
  | some previous => exact h

lemma ceWriteEntry_name (previous : List UInt8) :
    (ceWriteEntry hashsz ce (some previous)).2 = some ce.name := by
  have := (commonPrefix_le previous ce.name).2.2
  simp only [ceWriteEntry, this, List.take_append_drop]

theorem createFromDisk_write {version : Nat} {previousName : Option (List UInt8)} {previousCe : Option CacheEntry}
    (h : WellFormedEntry hashsz ce) (hversion : Compressed version previousName)
    (hprevious : PreviousAgrees previousName previousCe)
    (hlen : ∀ previous, previousName = some previous → previous.length < 2 ^ 31) (rest : List UInt8) :
    createFromDisk hashsz version ((ceWriteEntry hashsz ce previousName).1 ++ rest) previousCe =
      some (ce.onDisk, (ceWriteEntry hashsz ce previousName).1.length) := by
  cases previousName with
  | none =>
    have hne : version ≠ 4 := fun h4 => by simpa using hversion.mpr h4
    obtain ⟨pad, hpad⟩ : ∃ pad, alignPaddingSize (ondiskSize hashsz ce.ceFlags) ce.name.length = pad + 1 := by
      refine ⟨alignPaddingSize (ondiskSize hashsz ce.ceFlags) ce.name.length - 1, ?_⟩
      unfold alignPaddingSize
      omega
    have hbytes : (ceWriteEntry hashsz ce none).1 ++ rest =
        copyCacheEntryToOndisk ce ++ (ce.name ++ 0 :: (List.replicate pad 0 ++ rest)) := by
      simp only [ceWriteEntry, hpad, List.replicate_succ, List.append_assoc, List.cons_append]
    obtain ⟨flags, hflags, hnamelen, hstored⟩ := readFlags_spec h (ce.name ++ 0 :: (List.replicate pad 0 ++ rest))
    rw [hbytes]
    simp only [createFromDisk, hflags, readCopyLen, if_neg hne,
      readNamelen_spec hnamelen (Nat.add_zero _) h.name, readStat_spec, hstored]
    rw [if_neg (by simp)]
    simp only [Nat.sub_zero, List.take_left, oid_spec h, List.take_zero, Option.some_inj]
    refine Prod.ext ?_ ?_
    · cases previousCe <;> simp [CacheEntry.onDisk]
    · have hsize : ondiskSize hashsz ce.onDisk.ceFlags = ondiskSize hashsz ce.ceFlags := by
        have hkeep : ce.onDisk.ceFlags &&& CE_EXTENDED = ce.ceFlags &&& CE_EXTENDED := by
          have hmask : onDiskFlags &&& CE_EXTENDED = CE_EXTENDED := by decide
          rw [CacheEntry.onDisk, UInt32.and_assoc, hmask]
        simp only [ondiskSize, hkeep]
      simp only [ceWriteEntry, List.length_append, length_copyCacheEntryToOndisk h, List.length_replicate,
        ondiskCeSize, hsize, alignPaddingSize]
      omega
  | some previous =>
    have h4 : version = 4 := hversion.mp rfl
    set common := commonPrefix previous ce.name with hcommon
    obtain ⟨hle, hlename, htake⟩ := commonPrefix_le previous ce.name
    have hbytes : (ceWriteEntry hashsz ce (some previous)).1 ++ rest = copyCacheEntryToOndisk ce ++
        (encodeVarint (previous.length - common) ++ (ce.name.drop common ++ 0 :: rest)) := by
      simp only [ceWriteEntry, ← hcommon, List.append_assoc, List.cons_append, List.nil_append]
    obtain ⟨flags, hflags, hnamelen, hstored⟩ :=
      readFlags_spec h (encodeVarint (previous.length - common) ++ (ce.name.drop common ++ 0 :: rest))
    have hprev := hprevious previous rfl
    have hsmall := hlen previous rfl
    -- what is kept of the previous name is the common part
    have hcopy : readCopyLen version (encodeVarint (previous.length - common) ++ (ce.name.drop common ++ 0 :: rest))
        previousCe = some (common, ce.name.drop common ++ 0 :: rest) ∧
        (previousCe.map (fun p => p.name.take common)).getD [] = ce.name.take common := by
      unfold readCopyLen
      rw [if_pos h4, decodeVarint_encode (by omega)]
      cases previousCe with
      | none =>
        have hzero : common = 0 := commonPrefix_blank hprev _
        simp [hzero]
      | some p =>
        obtain ⟨hlength, hname⟩ := hprev
        dsimp only
        rw [if_neg (by omega), ← hlength]
        refine ⟨by congr 2; omega, ?_⟩
        obtain rfl | hblank := hname
        · exact htake
        · have hzero : common = 0 := commonPrefix_blank (.inr hblank) _
          simp [hzero]
    have htail : 0 ∉ ce.name.drop common := fun hmem => h.name (List.mem_of_mem_drop hmem)
    have hlength : (ce.name.drop common).length + common = ce.name.length := by
      rw [List.length_drop]
      omega
    rw [hbytes]
    simp only [createFromDisk, hflags, hcopy.1, readNamelen_spec hnamelen hlength htail, readStat_spec, hstored]
    rw [if_neg (by simp only [List.length_append, List.length_cons, List.length_drop]; omega), if_pos h4]
    have hrest : (ce.name.drop common ++ 0 :: rest).take (ce.name.length - common) = ce.name.drop common := by
      rw [← List.length_drop, List.take_left]
    simp only [hrest, hcopy.2, oid_spec h, List.take_append_drop, Option.some_inj]
    refine Prod.ext (by simp [CacheEntry.onDisk]) ?_
    simp only [ceWriteEntry, ← hcommon, List.length_append, List.length_cons, List.length_nil, List.length_drop]
    omega

end

end GitCore.Index
