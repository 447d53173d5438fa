import GitCore.Loose.ShortNames

/-!
# A written map is read

Where the tables of a written map stand, that the reader accepts the bytes, and what it finds in
them.
-/

namespace GitCore.Loose

open Std

/-- The two maps of a batch are each other's inverse, between the object IDs of two algorithms. -/
structure Paired (map : ObjectMemoryMap) : Prop where
  distinct : map.storage ≠ map.compat
  algo_storage : ∀ oid ∈ map.toCompat.keyList, oid.algo = map.storage
  algo_compat : ∀ oid ∈ map.toStorage.keyList, oid.algo = map.compat
  partner : ∀ s c kind, (s, ⟨c, kind⟩) ∈ map.toCompat.toList ↔ (c, ⟨s, kind⟩) ∈ map.toStorage.toList

lemma BTreeMap.mem_keyList {map : BTreeMap} {oid : ObjectID} : oid ∈ map.keyList ↔ ∃ value, (oid, value) ∈ map.toList := by
  rw [keyList, List.mem_map]
  constructor
  · rintro ⟨⟨key, value⟩, hmem, rfl⟩
    exact ⟨value, hmem⟩
  · rintro ⟨value, hmem⟩
    exact ⟨(oid, value), hmem, rfl⟩

lemma BTreeMap.nodup_keyList (map : BTreeMap) : map.keyList.Nodup := by
  refine map.sorted_keyList.imp fun {a b} hlt hsame => ?_
  rw [hsame, show compareOids b b = .eq from ReflCmp.compare_self] at hlt
  cases hlt

lemma BTreeMap.value_unique {map : BTreeMap} {oid : ObjectID} {value value' : MappedObject}
    (h : (oid, value) ∈ map.toList) (h' : (oid, value') ∈ map.toList) : value = value' := by
  obtain ⟨i, hi⟩ := List.getElem?_of_mem h
  obtain ⟨j, hj⟩ := List.getElem?_of_mem h'
  have hikey : map.keyList[i]? = some oid := by rw [keyList, List.getElem?_map, hi]; rfl
  have hjkey : map.keyList[j]? = some oid := by rw [keyList, List.getElem?_map, hj]; rfl
  obtain ⟨hlt, -⟩ := List.getElem?_eq_some_iff.mp hikey
  obtain rfl : i = j := (List.getElem?_inj hlt map.nodup_keyList).mp (hikey.trans hjkey.symm)
  rw [hi] at hj
  exact (Prod.mk.inj (Option.some.inj hj)).2

lemma MapType.fromU32_toU32 (kind : MapType) : MapType.fromU32 kind.toU32 = some kind := by
  cases kind <;> rfl

lemma MapType.toU32_lt (kind : MapType) : kind.toU32 < 4 := by
  cases kind <;> decide

lemma HashAlgorithm.fromFormatId_formatId (algo : HashAlgorithm) : fromFormatId algo.formatId = some algo := by
  cases algo <;> decide

lemma HashAlgorithm.formatId_lt (algo : HashAlgorithm) : algo.formatId < 2 ^ 32 := by
  cases algo <;> decide

section Paired

variable {map : ObjectMemoryMap} (h : Paired map)

include h in
lemma Paired.algo_value {value : MappedObject} (hvalue : value ∈ map.toCompat.valueList) : value.oid.algo = map.compat := by
  obtain ⟨⟨s, c, kind⟩, hmem, rfl⟩ := List.mem_map.mp hvalue
  exact h.algo_compat c (BTreeMap.mem_keyList.mpr ⟨_, (h.partner s c kind).mp hmem⟩)

include h in
lemma Paired.size_eq : map.toStorage.size = map.toCompat.size := by
  have hperm : (map.toCompat.toList.map fun pair => pair.2.oid).Perm map.toStorage.keyList := by
    have hnodup : map.toCompat.toList.Nodup := List.Nodup.of_map _ map.toCompat.nodup_keyList
    refine (List.perm_ext_iff_of_nodup (hnodup.map_on ?_) map.toStorage.nodup_keyList).mpr fun c => ?_
    · rintro ⟨s, c, kind⟩ hp ⟨s', c', kind'⟩ hq hsame
      obtain rfl : c = c' := hsame
      have hvalue := BTreeMap.value_unique ((h.partner s c kind).mp hp) ((h.partner s' c kind').mp hq)
      injection hvalue with hs hkind
      rw [hs, hkind]
    · rw [List.mem_map, BTreeMap.mem_keyList]
      constructor
      · rintro ⟨⟨s, c, kind⟩, hmem, rfl⟩
        exact ⟨⟨s, kind⟩, (h.partner s c kind).mp hmem⟩
      · rintro ⟨⟨s, kind⟩, hmem⟩
        exact ⟨(s, ⟨c, kind⟩), (h.partner s c kind).mpr hmem, rfl⟩
  rw [← map.toStorage.length_keyList, ← hperm.length_eq, List.length_map, Std.TreeMap.length_toList]

include h in
lemma Paired.orderMap_eq {s c : ObjectID} {kind : MapType} (hmem : (c, ⟨s, kind⟩) ∈ map.toStorage.toList) :
    map.toCompat.toList[map.orderMap s]? = some (s, ⟨c, kind⟩) := by
  obtain ⟨i, hi⟩ := List.getElem?_of_mem ((h.partner s c kind).mpr hmem)
  have hkey : map.toCompat.keyList[i]? = some s := by rw [BTreeMap.keyList, List.getElem?_map, hi]; rfl
  obtain ⟨hlt, hget⟩ := List.getElem?_eq_some_iff.mp hkey
  have hfind : map.orderMap s = i := by
    refine (List.findIdx_eq hlt).mpr ⟨?_, fun j hj => ?_⟩
    · rw [hget, show compareOids s s = .eq from ReflCmp.compare_self]
      rfl
    · have hsorted := List.pairwise_iff_getElem.mp map.toCompat.sorted_keyList j i (hj.trans hlt) hlt hj
      rw [hget] at hsorted
      rw [hsorted]
      rfl
  rw [hfind, hi]

end Paired

section Tables

variable {map : ObjectMemoryMap} (h : Paired map) {trailer : List UInt8}

lemma shortName_length {map : BTreeMap} {algop : HashAlgorithm} (halgo : ∀ oid ∈ map.keyList, oid.algo = algop) :
    ∀ oid ∈ map.keyList, (oid.asSlice.take (findShortNameLen map algop)).length = findShortNameLen map algop := by
  intro oid hoid
  rw [List.length_take, oid.length_asSlice, halgo oid hoid, Nat.min_eq_left findShortNameLen_bounds.2]

include h in
lemma Paired.length_tables : map.tables.map List.length = [4, 4, 4, 4, 4, 4, 4, 8, 4, 4, 8, 8, map.storageNpadding,
    map.storageShortLen * map.toCompat.size, map.storage.rawLen * map.toCompat.size, 4 * map.toCompat.size,
    map.compatNpadding, map.compatShortLen * map.toCompat.size, map.compat.rawLen * map.toCompat.size,
    4 * map.toCompat.size] := by
  have hshort : (map.toCompat.keyList.flatMap fun oid => oid.asSlice.take map.storageShortLen).length =
      map.storageShortLen * map.toCompat.size := by
    exact (length_table (shortName_length h.algo_storage)).trans (by rw [map.toCompat.length_keyList]; rfl)
  have hfull : (map.toCompat.keyList.flatMap ObjectID.asSlice).length = map.storage.rawLen * map.toCompat.size := by
    rw [length_table fun oid hoid => by rw [oid.length_asSlice, h.algo_storage oid hoid], map.toCompat.length_keyList]
  have hkinds : (map.toCompat.valueList.flatMap fun value => beBytes 4 value.kind.toU32).length =
      4 * map.toCompat.size := by
    rw [length_table fun _ _ => length_beBytes 4 _, map.toCompat.length_valueList]
  have hshort' : (map.toStorage.keyList.flatMap fun oid => oid.asSlice.take map.compatShortLen).length =
      map.compatShortLen * map.toCompat.size := by
    exact (length_table (shortName_length h.algo_compat)).trans (by rw [map.toStorage.length_keyList, h.size_eq]; rfl)
  have hfull' : (map.toCompat.valueList.flatMap fun value => value.oid.asSlice).length =
      map.compat.rawLen * map.toCompat.size := by
    rw [length_table fun value hvalue => by rw [value.oid.length_asSlice, h.algo_value hvalue],
      map.toCompat.length_valueList]
  have horder : (map.toStorage.valueList.flatMap fun value => beBytes 4 (map.orderMap value.oid)).length =
      4 * map.toCompat.size := by
    rw [length_table fun _ _ => length_beBytes 4 _, map.toStorage.length_valueList, h.size_eq]
  simp only [ObjectMemoryMap.tables, List.map_cons, List.map_nil, length_beBytes, List.length_replicate, hshort, hfull,
    hkinds, hshort', hfull', horder]
  rfl

lemma slice_tables {i pos len : Nat} {x : List UInt8} (hx : map.tables[i]? = some x)
    (hpos : ((map.tables.map List.length).take i).sum = pos) (hlen : x.length = len) :
    slice (map.write ++ trailer) pos len = x := by
  obtain ⟨hi, -⟩ := List.getElem?_eq_some_iff.mp hx
  have hflat : map.write ++ trailer = (map.tables ++ [trailer]).flatten := by
    rw [List.flatten_append, List.flatten_singleton]
    rfl
  refine slice_table hflat (x := x) (i := i) ?_ ?_ hlen
  · rw [List.getElem?_append_left hi, hx]
  · rw [List.take_append_of_le_length hi.le, List.map_take, hpos]

include h in
lemma Paired.length_file : (map.write ++ trailer).length = map.trailerOff + trailer.length := by
  rw [List.length_append, ObjectMemoryMap.write, List.length_flatten, h.length_tables]
  simp only [List.sum_cons, List.sum_nil, ObjectMemoryMap.trailerOff, ObjectMemoryMap.compatOff,
    ObjectMemoryMap.storageOff, headerSize]
  ring

lemma beAt_tables {i pos len v : Nat} (hx : map.tables[i]? = some (beBytes len v))
    (hpos : ((map.tables.map List.length).take i).sum = pos) :
    beAt (map.write ++ trailer) pos len = v % 256 ^ len := by
  rw [beAt, slice_tables hx hpos (length_beBytes len v), beValue_beBytes]

end Tables

section Formats

variable {data : List UInt8} {nitems offset : Nat}

lemma readFormat_ok {algo : HashAlgorithm} {shortenedLen dataOff : Nat} (hheader : offset + 24 ≤ data.length)
    (halgo : beAt data offset 4 = algo.formatId) (hshort : beAt data (offset + 4) 4 = shortenedLen)
    (hdata : beAt data (offset + 8) 8 = dataOff) (haligned : (dataOff + shortenedLen * nitems) % 4 = 0)
    (hend : algo.rawLen * nitems + (dataOff + shortenedLen * nitems) + nitems * 4 < data.length)
    (hsize : data.length < 2 ^ 64) :
    readFormat data nitems offset = .ok (algo, dataOff, shortenedLen, dataOff + shortenedLen * nitems,
      algo.rawLen * nitems + (dataOff + shortenedLen * nitems)) := by
  have hchecked : ∀ n, n < data.length → checked n = .ok n := fun n hn => if_pos (hn.trans hsize)
  have hraw : (algo.rawLen * nitems + (dataOff + shortenedLen * nitems)) % 4 = 0 := by
    cases algo <;> simp only [HashAlgorithm.rawLen] <;> omega
  unfold readFormat
  rw [if_neg (by omega), halgo, HashAlgorithm.fromFormatId_formatId, hshort, hdata]
  simp only [hchecked _ (show shortenedLen * nitems < data.length by omega),
    hchecked _ (show dataOff + shortenedLen * nitems < data.length by omega),
    hchecked _ (show algo.rawLen * nitems < data.length by omega),
    hchecked _ (show algo.rawLen * nitems + (dataOff + shortenedLen * nitems) < data.length by omega),
    hchecked _ (show nitems * 4 < data.length by omega), hchecked _ hend, verifyAligned, verifyValid, haligned, hraw,
    bind, Except.bind, pure, Except.pure, ne_eq, not_true_eq_false, if_false]
  rw [if_neg (by omega), if_neg (by omega), if_neg (by omega)]

lemma ok_of_bind {ε α β : Type} {x : Except ε α} {f : α → Except ε β} {r : β} (h : (x >>= f) = .ok r) :
    ∃ a, x = .ok a ∧ f a = .ok r := by
  cases x with
  | error e => cases h
  | ok a => exact ⟨a, rfl, h⟩

lemma checked_ok {n m : Nat} (h : checked n = .ok m) : m = n ∧ n < 2 ^ 64 := by
  unfold checked at h
  split_ifs at h with hlt
  exact ⟨(Except.ok.inj h).symm, hlt⟩

lemma readFormat_inv {algo : HashAlgorithm} {dataOff shortenedLen fullOff off : Nat}
    (h : readFormat data nitems offset = .ok (algo, dataOff, shortenedLen, fullOff, off)) :
    (HashAlgorithm.fromFormatId (beAt data offset 4) = some algo ∧ shortenedLen = beAt data (offset + 4) 4) ∧
      fullOff = dataOff + shortenedLen * nitems ∧ off = algo.rawLen * nitems + fullOff ∧
      off + nitems * 4 < data.length ∧ off + nitems * 4 < 2 ^ 64 := by
  unfold readFormat at h
  by_cases hsmall : offset + (4 + 4 + 8) + 8 > data.length
  · rw [if_pos hsmall] at h
    cases h
  · rw [if_neg hsmall] at h
    dsimp only at h
    cases hid : HashAlgorithm.fromFormatId (beAt data offset 4) with
    | none =>
      rw [hid] at h
      cases h
    | some found =>
      rw [hid] at h
      dsimp only at h
      obtain ⟨algo', hpure, h⟩ := ok_of_bind h
      cases hpure
      obtain ⟨_, hshort, h⟩ := ok_of_bind h
      obtain ⟨_, hfull, h⟩ := ok_of_bind h
      obtain ⟨_, -, h⟩ := ok_of_bind h
      obtain ⟨_, -, h⟩ := ok_of_bind h
      obtain ⟨_, hlength, h⟩ := ok_of_bind h
      obtain ⟨_, hoff, h⟩ := ok_of_bind h
      obtain ⟨_, -, h⟩ := ok_of_bind h
      obtain ⟨_, -, h⟩ := ok_of_bind h
      obtain ⟨_, hsize, h⟩ := ok_of_bind h
      obtain ⟨_, hend, h⟩ := ok_of_bind h
      obtain ⟨_, hvalid, h⟩ := ok_of_bind h
      cases h
      unfold verifyValid at hvalid
      split_ifs at hvalid with hlt
      obtain ⟨rfl, hbound⟩ := checked_ok hend
      obtain ⟨rfl, -⟩ := checked_ok hsize
      obtain ⟨rfl, -⟩ := checked_ok hoff
      obtain ⟨rfl, -⟩ := checked_ok hlength
      obtain ⟨rfl, -⟩ := checked_ok hfull
      obtain ⟨rfl, -⟩ := checked_ok hshort
      exact ⟨⟨rfl, rfl⟩, rfl, rfl, Nat.lt_of_not_le hlt, hbound⟩

lemma newMmaped_ok {hashAlgo : HashAlgorithm} {mmaped : MmapedObjectMap} (h : newMmaped data hashAlgo = .ok mmaped) :
    ∃ offset metaOff formats, mmaped = ⟨data, beAt data 12 4, metaOff, formats, hashAlgo⟩ ∧
      readFormats data (beAt data 12 4) 0 20 none (fun _ => none) (beAt data 16 4) =
        .ok (offset, some metaOff, formats) := by
  unfold newMmaped at h
  by_cases hsmall : data.length < headerSize
  · rw [if_pos hsmall] at h
    cases h
  rw [if_neg hsmall] at h
  by_cases hsignature : slice data 0 4 ≠ [76, 77, 65, 80]
  · rw [if_pos hsignature] at h
    cases h
  rw [if_neg hsignature] at h
  by_cases hversion : beAt data 4 4 ≠ 1
  · rw [if_pos hversion] at h
    cases h
  rw [if_neg hversion] at h
  by_cases hfew : beAt data 16 4 < 2
  · rw [if_pos hfew] at h
    cases h
  rw [if_neg hfew] at h
  obtain ⟨⟨offset, metaOff, formats⟩, hread, h⟩ := ok_of_bind h
  dsimp only at h
  obtain ⟨-, -, h⟩ := ok_of_bind h
  obtain ⟨-, -, h⟩ := ok_of_bind h
  obtain ⟨trailerEnd, -, h⟩ := ok_of_bind h
  by_cases hend : trailerEnd ≠ data.length
  · rw [if_pos hend] at h
    cases h
  rw [if_neg hend] at h
  cases metaOff with
  | none => cases h
  | some metaOff => exact ⟨offset, metaOff, formats, (Except.ok.inj h).symm, hread⟩

end Formats

end GitCore.Loose
