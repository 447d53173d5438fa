import GitCore.Loose.FileSpec

/-!
# Objects are found in the file

The reader accepts what was written, and a lookup goes through the table of short names to the full
entry that stands for the same pair.
-/

namespace GitCore.Loose

open Std

variable {map : ObjectMemoryMap} {trailer : List UInt8}

namespace ObjectMemoryMap

def storageFullOff (map : ObjectMemoryMap) : Nat := map.storageOff + map.storageShortLen * map.toCompat.size

def kindsOff (map : ObjectMemoryMap) : Nat := map.storage.rawLen * map.toCompat.size + map.storageFullOff

def compatFullOff (map : ObjectMemoryMap) : Nat := map.compatOff + map.compatShortLen * map.toCompat.size

def orderOff (map : ObjectMemoryMap) : Nat := map.compat.rawLen * map.toCompat.size + map.compatFullOff

def formats (map : ObjectMemoryMap) : HashAlgorithm → Option ObjectFormatData :=
  Function.update (Function.update (fun _ => none) map.storage
    (some ⟨map.storageOff, map.storageShortLen, map.storageFullOff, none⟩)) map.compat
    (some ⟨map.compatOff, map.compatShortLen, map.compatFullOff, some map.orderOff⟩)

def mmaped (map : ObjectMemoryMap) (trailer : List UInt8) : MmapedObjectMap :=
  ⟨map.write ++ trailer, map.toCompat.size, map.kindsOff, map.formats, map.storage⟩

end ObjectMemoryMap

lemma formats_storage (hne : map.storage ≠ map.compat) :
    map.formats map.storage = some ⟨map.storageOff, map.storageShortLen, map.storageFullOff, none⟩ := by
  rw [ObjectMemoryMap.formats, Function.update_of_ne hne, Function.update_self]

lemma formats_compat :
    map.formats map.compat = some ⟨map.compatOff, map.compatShortLen, map.compatFullOff, some map.orderOff⟩ := by
  rw [ObjectMemoryMap.formats, Function.update_self]

lemma padding_aligned (n s : Nat) {base : Nat} (hbase : base % 4 = 0) : (base + requiredNulPadding n s + s * n) % 4 = 0 := by
  unfold requiredNulPadding
  rw [Nat.mul_comm n s]
  omega

lemma rawLen_aligned (algo : HashAlgorithm) (n : Nat) : (algo.rawLen * n) % 4 = 0 := by
  cases algo <;> simp only [HashAlgorithm.rawLen] <;> omega

lemma storageFullOff_aligned : map.storageFullOff % 4 = 0 :=
  padding_aligned _ _ (by decide)

lemma compatFullOff_aligned : map.compatFullOff % 4 = 0 := by
  refine padding_aligned _ _ ?_
  have hfull : map.storageFullOff % 4 = 0 := storageFullOff_aligned
  have hraw := rawLen_aligned map.storage map.toCompat.size
  rw [ObjectMemoryMap.storageFullOff] at hfull
  rw [Nat.mul_comm] at hraw
  rw [Nat.mul_add, Nat.mul_add, Nat.mul_comm _ map.storageShortLen]
  omega

lemma trailerOff_eq : map.trailerOff = map.orderOff + map.toCompat.size * 4 := by
  rw [ObjectMemoryMap.trailerOff, ObjectMemoryMap.orderOff, ObjectMemoryMap.compatFullOff]
  ring

lemma compatOff_eq : map.compatOff = map.kindsOff + map.toCompat.size * 4 + map.compatNpadding := by
  rw [ObjectMemoryMap.compatOff, ObjectMemoryMap.kindsOff, ObjectMemoryMap.storageFullOff]
  ring

lemma trailerOff_aligned : map.trailerOff % 4 = 0 := by
  have hfull : map.compatFullOff % 4 = 0 := compatFullOff_aligned
  have hraw := rawLen_aligned map.compat map.toCompat.size
  rw [trailerOff_eq, ObjectMemoryMap.orderOff]
  omega

lemma requiredNulPadding_lt (n s : Nat) : requiredNulPadding n s < 4 := Nat.mod_lt _ (by decide)

lemma trailerOff_lt (hn : map.toCompat.size < 2 ^ 32) : map.trailerOff + 32 < 2 ^ 64 := by
  have hpad := requiredNulPadding_lt map.toCompat.size map.storageShortLen
  have hpad' := requiredNulPadding_lt map.toCompat.size map.compatShortLen
  have hshort : map.storageShortLen ≤ 32 := findShortNameLen_bounds.2.trans (rawLen_le _)
  have hshort' : map.compatShortLen ≤ 32 := findShortNameLen_bounds.2.trans (rawLen_le _)
  have hraw : map.storage.rawLen ≤ 32 := rawLen_le _
  have hraw' : map.compat.rawLen ≤ 32 := rawLen_le _
  have hfirst : map.toCompat.size * (map.storageShortLen + map.storage.rawLen + 4) ≤ map.toCompat.size * 68 :=
    Nat.mul_le_mul_left _ (by omega)
  have hsecond : map.toCompat.size * (map.compatShortLen + map.compat.rawLen + 4) ≤ map.toCompat.size * 68 :=
    Nat.mul_le_mul_left _ (by omega)
  simp only [ObjectMemoryMap.trailerOff, ObjectMemoryMap.compatOff, ObjectMemoryMap.storageOff,
    ObjectMemoryMap.storageNpadding, ObjectMemoryMap.compatNpadding, headerSize]
  omega

section Header

variable (h : Paired map)

include h in
lemma nitems_eq : beAt (map.write ++ trailer) 12 4 = map.toCompat.size % 2 ^ 32 :=
  beAt_tables (i := 3) rfl (by rw [h.length_tables]; rfl)

include h in
lemma nobjFormats_eq : beAt (map.write ++ trailer) 16 4 = 2 :=
  beAt_tables (i := 4) rfl (by rw [h.length_tables]; rfl)

include h in
lemma storageFormat_eq : beAt (map.write ++ trailer) 20 4 = map.storage.formatId :=
  (beAt_tables (i := 5) rfl (by rw [h.length_tables]; rfl)).trans (Nat.mod_eq_of_lt map.storage.formatId_lt)

include h in
lemma storageShort_eq : beAt (map.write ++ trailer) 24 4 = map.storageShortLen := by
  have hshort : map.storageShortLen ≤ 32 := findShortNameLen_bounds.2.trans (rawLen_le _)
  refine (beAt_tables (i := 6) rfl (by rw [h.length_tables]; rfl)).trans (Nat.mod_eq_of_lt ?_)
  norm_num
  omega

include h in
lemma compatFormat_eq : beAt (map.write ++ trailer) 36 4 = map.compat.formatId :=
  (beAt_tables (i := 8) rfl (by rw [h.length_tables]; rfl)).trans (Nat.mod_eq_of_lt map.compat.formatId_lt)

include h in
lemma compatShort_eq : beAt (map.write ++ trailer) 40 4 = map.compatShortLen := by
  have hshort : map.compatShortLen ≤ 32 := findShortNameLen_bounds.2.trans (rawLen_le _)
  refine (beAt_tables (i := 9) rfl (by rw [h.length_tables]; rfl)).trans (Nat.mod_eq_of_lt ?_)
  norm_num
  omega

end Header

theorem newMmaped_write (h : Paired map) (hn : map.toCompat.size < 2 ^ 32) (htrailer : trailer.length = map.storage.rawLen) :
    newMmaped (map.write ++ trailer) map.storage = .ok (map.mmaped trailer) := by
  have hlength : (map.write ++ trailer).length = map.trailerOff + trailer.length := h.length_file
  have hbound := trailerOff_lt hn
  have hraw : map.storage.rawLen ≤ 32 := rawLen_le _
  have hrawPos : 20 ≤ map.storage.rawLen := by cases map.storage <;> decide
  have htrailerOff : map.trailerOff = map.orderOff + map.toCompat.size * 4 := trailerOff_eq
  have hcompatOff : map.compatOff = map.kindsOff + map.toCompat.size * 4 + map.compatNpadding := compatOff_eq
  have horderOff : map.orderOff = map.compat.rawLen * map.toCompat.size + map.compatFullOff := rfl
  have hkindsOff : map.kindsOff = map.storage.rawLen * map.toCompat.size + map.storageFullOff := rfl
  have hstorageFull : map.storageFullOff = map.storageOff + map.storageShortLen * map.toCompat.size := rfl
  have hcompatFull : map.compatFullOff = map.compatOff + map.compatShortLen * map.toCompat.size := rfl
  have hstorageOff : map.storageOff = 60 + map.storageNpadding := rfl
  set data := map.write ++ trailer with hdata
  have hmod : ∀ v, v < 2 ^ 64 → v % 256 ^ 8 = v := fun v hv => Nat.mod_eq_of_lt (by norm_num at hv ⊢; exact hv)
  have hoff : beAt data 28 8 = map.storageOff :=
    (beAt_tables (i := 7) rfl (by rw [h.length_tables]; rfl)).trans (hmod _ (by omega))
  have hoff' : beAt data 44 8 = map.compatOff :=
    (beAt_tables (i := 10) rfl (by rw [h.length_tables]; rfl)).trans (hmod _ (by omega))
  have hend : beAt data 52 8 = map.trailerOff :=
    (beAt_tables (i := 11) rfl (by rw [h.length_tables]; rfl)).trans (hmod _ (by omega))
  have hsignature : slice data 0 4 = [76, 77, 65, 80] := slice_tables (i := 0) rfl (by rw [h.length_tables]; rfl) rfl
  have hversion : beAt data 4 4 = 1 := beAt_tables (i := 1) rfl (by rw [h.length_tables]; rfl)
  have hnitems : beAt data 12 4 = map.toCompat.size := (nitems_eq h).trans (Nat.mod_eq_of_lt hn)
  have hfirst : readFormat data map.toCompat.size 20 = .ok (map.storage, map.storageOff, map.storageShortLen,
      map.storageFullOff, map.kindsOff) :=
    readFormat_ok (by omega) (storageFormat_eq h) (storageShort_eq h) hoff storageFullOff_aligned (by omega) (by omega)
  have hsecond : readFormat data map.toCompat.size 36 = .ok (map.compat, map.compatOff, map.compatShortLen,
      map.compatFullOff, map.orderOff) :=
    readFormat_ok (by omega) (compatFormat_eq h) (compatShort_eq h) hoff' compatFullOff_aligned (by omega) (by omega)
  have hformats : readFormats data map.toCompat.size 0 20 none (fun _ => none) 2 =
      .ok (52, some map.kindsOff, map.formats) := by
    rw [readFormats, hfirst]
    change readFormats data map.toCompat.size 1 36 _ _ 1 = _
    rw [readFormats, hsecond]
    rfl
  unfold newMmaped
  rw [if_neg (by rw [hlength, headerSize]; omega), hsignature, if_neg (fun hne => hne rfl), hversion, if_neg (fun hne => hne rfl),
    hnitems, nobjFormats_eq h, if_neg (by decide), hformats]
  change (verifyAligned (beAt data 52 8) >>= fun _ => _) = _
  rw [hend]
  have haligned : verifyAligned map.trailerOff = .ok () := by
    rw [verifyAligned, trailerOff_aligned]
    rfl
  have hvalid : verifyValid data map.trailerOff = .ok () := if_neg (by omega)
  have hchecked : checked (map.trailerOff + map.storage.rawLen) = .ok (map.trailerOff + map.storage.rawLen) :=
    if_pos (by omega)
  rw [haligned]
  change (verifyValid data map.trailerOff >>= fun _ => _) = _
  rw [hvalid]
  change (checked (map.trailerOff + map.storage.rawLen) >>= fun _ => _) = _
  rw [hchecked]
  change (if map.trailerOff + map.storage.rawLen ≠ data.length then _ else _) = _
  rw [if_neg (by rw [hlength, htrailer]; exact fun hne => hne rfl)]
  rfl

section Entries

variable (h : Paired map) {i : Nat} {s : ObjectID} {value : MappedObject}

lemma keyList_getElem? {map : BTreeMap} (hi : map.toList[i]? = some (s, value)) :
    map.keyList[i]? = some s ∧ map.valueList[i]? = some value := by
  rw [BTreeMap.keyList, BTreeMap.valueList, List.getElem?_map, List.getElem?_map, hi]
  exact ⟨rfl, rfl⟩

include h in
lemma slice_storageFull (hi : map.toCompat.keyList[i]? = some s) :
    slice (map.write ++ trailer) (map.storageFullOff + i * map.storage.rawLen) map.storage.rawLen = s.asSlice := by
  have htable : slice (map.write ++ trailer) map.storageFullOff (map.storage.rawLen * map.toCompat.keyList.length) =
      map.toCompat.keyList.flatMap ObjectID.asSlice := by
    have hlength := congrArg (fun l => l[14]?) h.length_tables
    rw [List.getElem?_map] at hlength
    rw [map.toCompat.length_keyList]
    refine slice_tables (i := 14) rfl ?_ (Option.some.inj hlength)
    rw [h.length_tables]
    simp only [List.take_succ_cons, List.take_zero, List.sum_cons, List.sum_nil, ObjectMemoryMap.storageFullOff,
      ObjectMemoryMap.storageOff, headerSize]
    ring
  rw [Nat.mul_comm i]
  exact slice_record (fun oid hoid => by rw [oid.length_asSlice, h.algo_storage oid hoid]) htable hi

include h in
lemma beAt_kinds (hi : map.toCompat.valueList[i]? = some value) :
    beAt (map.write ++ trailer) (map.kindsOff + i * 4) 4 = value.kind.toU32 := by
  have htable : slice (map.write ++ trailer) map.kindsOff (4 * map.toCompat.valueList.length) =
      map.toCompat.valueList.flatMap fun value => beBytes 4 value.kind.toU32 := by
    have hlength := congrArg (fun l => l[15]?) h.length_tables
    rw [List.getElem?_map] at hlength
    rw [map.toCompat.length_valueList]
    refine slice_tables (i := 15) rfl ?_ (Option.some.inj hlength)
    rw [h.length_tables]
    simp only [List.take_succ_cons, List.take_zero, List.sum_cons, List.sum_nil, ObjectMemoryMap.kindsOff,
      ObjectMemoryMap.storageFullOff, ObjectMemoryMap.storageOff, headerSize]
    ring
  have hkind := value.kind.toU32_lt
  rw [Nat.mul_comm i, beAt, slice_record (fun _ _ => length_beBytes _ _) htable hi, beValue_beBytes,
    Nat.mod_eq_of_lt (by norm_num; omega)]

include h in
lemma slice_compatFull (hi : map.toCompat.valueList[i]? = some value) :
    slice (map.write ++ trailer) (map.compatFullOff + i * map.compat.rawLen) map.compat.rawLen = value.oid.asSlice := by
  have htable : slice (map.write ++ trailer) map.compatFullOff (map.compat.rawLen * map.toCompat.valueList.length) =
      map.toCompat.valueList.flatMap fun value => value.oid.asSlice := by
    have hlength := congrArg (fun l => l[18]?) h.length_tables
    rw [List.getElem?_map] at hlength
    rw [map.toCompat.length_valueList]
    refine slice_tables (i := 18) rfl ?_ (Option.some.inj hlength)
    rw [h.length_tables]
    simp only [List.take_succ_cons, List.take_zero, List.sum_cons, List.sum_nil, ObjectMemoryMap.compatFullOff,
      ObjectMemoryMap.compatOff, ObjectMemoryMap.storageOff, headerSize]
    ring
  rw [Nat.mul_comm i]
  exact slice_record (fun value hvalue => by rw [value.oid.length_asSlice, h.algo_value hvalue]) htable hi

include h in
lemma beAt_order (hn : map.toCompat.size < 2 ^ 32) {c : ObjectID} {kind : MapType}
    (hi : map.toStorage.toList[i]? = some (c, ⟨s, kind⟩)) :
    beAt (map.write ++ trailer) (map.orderOff + i * 4) 4 = map.orderMap s := by
  have htable : slice (map.write ++ trailer) map.orderOff (4 * map.toStorage.valueList.length) =
      map.toStorage.valueList.flatMap fun value => beBytes 4 (map.orderMap value.oid) := by
    have hlength := congrArg (fun l => l[19]?) h.length_tables
    rw [List.getElem?_map] at hlength
    rw [map.toStorage.length_valueList, h.size_eq]
    refine slice_tables (i := 19) rfl ?_ (Option.some.inj hlength)
    rw [h.length_tables]
    simp only [List.take_succ_cons, List.take_zero, List.sum_cons, List.sum_nil, ObjectMemoryMap.orderOff,
      ObjectMemoryMap.compatFullOff, ObjectMemoryMap.compatOff, ObjectMemoryMap.storageOff, headerSize]
    ring
  have horder := h.orderMap_eq (List.mem_of_getElem? hi)
  obtain ⟨hlt, -⟩ := List.getElem?_eq_some_iff.mp horder
  rw [Std.TreeMap.length_toList] at hlt
  rw [Nat.mul_comm i, beAt, slice_record (fun _ _ => length_beBytes _ _) htable (keyList_getElem? hi).2, beValue_beBytes,
    Nat.mod_eq_of_lt (by norm_num; omega)]

lemma oidOfBytes_asSlice (oid : ObjectID) : MmapedObjectMap.oidOfBytes oid.asSlice oid.algo = some oid := by
  rw [MmapedObjectMap.oidOfBytes, dif_pos oid.length_asSlice]
  exact congrArg some (ObjectID.ext_hash oid.hash_eq.symm rfl)

include h in
lemma oidFromOffset_storage (hi : map.toCompat.toList[i]? = some (s, value)) :
    (map.mmaped trailer).oidFromOffset i map.storage = some s := by
  have hkey := (keyList_getElem? hi).1
  have halgo := h.algo_storage s (List.mem_of_getElem? hkey)
  rw [MmapedObjectMap.oidFromOffset]
  change (map.formats map.storage >>= _) = _
  rw [formats_storage h.distinct]
  change MmapedObjectMap.oidOfBytes (slice (map.write ++ trailer) (map.storageFullOff + i * map.storage.rawLen)
    map.storage.rawLen) map.storage = _
  rw [slice_storageFull h hkey, ← halgo, oidOfBytes_asSlice]

include h in
lemma oidFromOffset_compat (hi : map.toCompat.toList[i]? = some (s, value)) :
    (map.mmaped trailer).oidFromOffset i map.compat = some value.oid := by
  have hvalue := (keyList_getElem? hi).2
  have halgo := h.algo_value (List.mem_of_getElem? hvalue)
  rw [MmapedObjectMap.oidFromOffset]
  change (map.formats map.compat >>= _) = _
  rw [formats_compat]
  change MmapedObjectMap.oidOfBytes (slice (map.write ++ trailer) (map.compatFullOff + i * map.compat.rawLen)
    map.compat.rawLen) map.compat = _
  rw [slice_compatFull h hvalue, ← halgo, oidOfBytes_asSlice]

end Entries

section LookUp

variable (h : Paired map) {oid : ObjectID} {i : Nat}

lemma binarySearchSlice_shortNames {tree : BTreeMap} {algop : HashAlgorithm} (halgo : ∀ key ∈ tree.keyList, key.algo = algop)
    (hoid : oid.algo = algop) :
    binarySearchSlice (tree.keyList.flatMap fun key => key.asSlice.take (findShortNameLen tree algop))
        (oid.asSlice.take (findShortNameLen tree algop)) = some i ↔
      ∃ key, tree.keyList[i]? = some key ∧
        key.asSlice.take (findShortNameLen tree algop) = oid.asSlice.take (findShortNameLen tree algop) := by
  have hwanted : (oid.asSlice.take (findShortNameLen tree algop)).length = findShortNameLen tree algop := by
    rw [List.length_take, oid.length_asSlice, hoid, Nat.min_eq_left findShortNameLen_bounds.2]
  rw [List.flatMap_def, binarySearchSlice_table (by rw [hwanted]; exact findShortNameLen_bounds.1) ?_
    (sorted_shortNames halgo), List.getElem?_map, Option.map_eq_some_iff]
  intro r hr
  obtain ⟨key, hkey, rfl⟩ := List.mem_map.mp hr
  rw [hwanted]
  exact shortName_length halgo key hkey

include h in
lemma slice_storageShort : slice (map.write ++ trailer) map.storageOff (map.storageShortLen * map.toCompat.size) =
    map.toCompat.keyList.flatMap fun key => key.asSlice.take map.storageShortLen := by
  have hlength := congrArg (fun l => l[13]?) h.length_tables
  rw [List.getElem?_map] at hlength
  refine slice_tables (i := 13) rfl ?_ (Option.some.inj hlength)
  rw [h.length_tables]
  simp only [List.take_succ_cons, List.take_zero, List.sum_cons, List.sum_nil, ObjectMemoryMap.storageOff, headerSize]
  ring

include h in
lemma slice_compatShort : slice (map.write ++ trailer) map.compatOff (map.compatShortLen * map.toCompat.size) =
    map.toStorage.keyList.flatMap fun key => key.asSlice.take map.compatShortLen := by
  have hlength := congrArg (fun l => l[17]?) h.length_tables
  rw [List.getElem?_map] at hlength
  refine slice_tables (i := 17) rfl ?_ (Option.some.inj hlength)
  rw [h.length_tables]
  simp only [List.take_succ_cons, List.take_zero, List.sum_cons, List.sum_nil, ObjectMemoryMap.compatOff,
    ObjectMemoryMap.storageOff, headerSize]
  ring

include h in
lemma lookUp_storage (hoid : oid.algo = map.storage) :
    (map.mmaped trailer).lookUpObject oid = some i ↔ map.toCompat.keyList[i]? = some oid := by
  rw [MmapedObjectMap.lookUpObject]
  change (map.formats oid.algo >>= _) = some i ↔ _
  rw [hoid, formats_storage h.distinct]
  change (binarySearchSlice (slice (map.write ++ trailer) map.storageOff (map.storageShortLen * map.toCompat.size))
    (oid.asSlice.take map.storageShortLen) >>= fun index =>
      if slice (map.write ++ trailer) (map.storageFullOff + index * map.storage.rawLen) map.storage.rawLen ≠ oid.asSlice
        then none else some index) = some i ↔ _
  rw [slice_storageShort h, Option.bind_eq_bind, Option.bind_eq_some_iff]
  constructor
  · rintro ⟨index, hsearch, hcheck⟩
    obtain ⟨key, hkey, -⟩ := (binarySearchSlice_shortNames h.algo_storage hoid).mp hsearch
    rw [slice_storageFull h hkey] at hcheck
    split at hcheck
    · cases hcheck
    · rename_i hsame
      obtain rfl := Option.some.inj hcheck
      have halgo := h.algo_storage key (List.mem_of_getElem? hkey)
      rw [hkey, ObjectID.ext_asSlice (halgo.trans hoid.symm) (not_not.mp hsame)]
  · intro hkey
    refine ⟨i, (binarySearchSlice_shortNames h.algo_storage hoid).mpr ⟨oid, hkey, rfl⟩, ?_⟩
    rw [slice_storageFull h hkey, if_neg (fun hne => hne rfl)]

include h in
lemma lookUp_compat (hn : map.toCompat.size < 2 ^ 32) (hoid : oid.algo = map.compat) :
    (map.mmaped trailer).lookUpObject oid = some i ↔ ∃ s kind, map.toCompat.toList[i]? = some (s, ⟨oid, kind⟩) := by
  have hentry : ∀ {j : Nat} {key : ObjectID}, map.toStorage.keyList[j]? = some key →
      ∃ (s : ObjectID) (kind : MapType), map.toStorage.toList[j]? = some (key, ⟨s, kind⟩) ∧
      map.toCompat.toList[map.orderMap s]? = some (s, ⟨key, kind⟩) ∧ map.orderMap s < map.toCompat.size := by
    intro j key hkey
    rw [BTreeMap.keyList, List.getElem?_map, Option.map_eq_some_iff] at hkey
    obtain ⟨⟨key', s, kind⟩, hj, rfl⟩ := hkey
    have horder := h.orderMap_eq (List.mem_of_getElem? hj)
    obtain ⟨hlt, -⟩ := List.getElem?_eq_some_iff.mp horder
    rw [Std.TreeMap.length_toList] at hlt
    exact ⟨s, kind, hj, horder, hlt⟩
  rw [MmapedObjectMap.lookUpObject]
  change (map.formats oid.algo >>= _) = some i ↔ _
  rw [hoid, formats_compat]
  change (binarySearchSlice (slice (map.write ++ trailer) map.compatOff (map.compatShortLen * map.toCompat.size))
    (oid.asSlice.take map.compatShortLen) >>= fun index =>
      if beAt (map.write ++ trailer) (map.orderOff + index * 4) 4 ≥ map.toCompat.size then none
      else if slice (map.write ++ trailer) (map.compatFullOff +
          beAt (map.write ++ trailer) (map.orderOff + index * 4) 4 * map.compat.rawLen) map.compat.rawLen ≠ oid.asSlice
        then none else some (beAt (map.write ++ trailer) (map.orderOff + index * 4) 4)) = some i ↔ _
  rw [slice_compatShort h, Option.bind_eq_bind, Option.bind_eq_some_iff]
  constructor
  · rintro ⟨index, hsearch, hcheck⟩
    obtain ⟨key, hkey, -⟩ := (binarySearchSlice_shortNames h.algo_compat hoid).mp hsearch
    obtain ⟨s, kind, hindex, horder, hlt⟩ := hentry hkey
    rw [beAt_order h hn hindex, if_neg (Nat.not_le.mpr hlt), slice_compatFull h (keyList_getElem? horder).2] at hcheck
    split at hcheck
    · cases hcheck
    · rename_i hsame
      obtain rfl := Option.some.inj hcheck
      have halgo := h.algo_compat key (List.mem_of_getElem? hkey)
      obtain rfl : key = oid := ObjectID.ext_asSlice (halgo.trans hoid.symm) (not_not.mp hsame)
      exact ⟨s, kind, horder⟩
  · rintro ⟨s, kind, hi⟩
    obtain ⟨j, hj⟩ := List.getElem?_of_mem ((h.partner s oid kind).mp (List.mem_of_getElem? hi))
    have hkey := (keyList_getElem? hj).1
    have horder := h.orderMap_eq (List.mem_of_getElem? hj)
    obtain ⟨hlt, -⟩ := List.getElem?_eq_some_iff.mp horder
    rw [Std.TreeMap.length_toList] at hlt
    have hsame : map.orderMap s = i :=
      (List.getElem?_inj (by rwa [map.toCompat.length_keyList]) map.toCompat.nodup_keyList).mp
        ((keyList_getElem? horder).1.trans (keyList_getElem? hi).1.symm)
    refine ⟨j, (binarySearchSlice_shortNames h.algo_compat hoid).mpr ⟨oid, hkey, rfl⟩, ?_⟩
    rw [beAt_order h hn hj, if_neg (Nat.not_le.mpr hlt), slice_compatFull h (keyList_getElem? horder).2,
      if_neg (fun hne => hne rfl), hsame]

end LookUp

end GitCore.Loose
