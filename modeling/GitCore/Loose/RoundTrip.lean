import GitCore.Loose.LookupSpec

/-!
# A batch is found again

What the insertions of a batch leave in its two maps, and that a lookup in the written file gives the
pair that was inserted last. The count of the file has 32 bits.
-/

namespace GitCore.Loose

open Std

structure Insertion where
  oid1 : ObjectID
  oid2 : ObjectID
  kind : MapType

namespace Insertion

def storageOid (compat : HashAlgorithm) (call : Insertion) : ObjectID :=
  if call.oid1.algo = compat then call.oid2 else call.oid1

def compatOid (compat : HashAlgorithm) (call : Insertion) : ObjectID :=
  if call.oid1.algo = compat then call.oid1 else call.oid2

end Insertion

def ObjectMap.insertAll (map : ObjectMap) (calls : List Insertion) : ObjectMap :=
  calls.foldl (fun map call => map.insert call.oid1 call.oid2 call.kind true) map

/-- A batch with these insertions, up to the bytes that `finish_batch` writes. -/
def batchFile (map : ObjectMap) (calls : List Insertion) : List UInt8 :=
  (map.startBatch.insertAll calls).finishBatch.1

structure OneToOne (storage compat : HashAlgorithm) (calls : List Insertion) : Prop where
  algos : ∀ call ∈ calls, (call.storageOid compat).algo = storage ∧ (call.compatOid compat).algo = compat
  pairs : ∀ a ∈ calls, ∀ b ∈ calls, a.storageOid compat = b.storageOid compat ↔ a.compatOid compat = b.compatOid compat

/-- The last call for an object ID of the storage algorithm, and for one of the other algorithm. -/
def lastForStorage (compat : HashAlgorithm) (calls : List Insertion) (oid : ObjectID) : Option Insertion :=
  calls.reverse.find? fun call => call.storageOid compat = oid

def lastForCompat (compat : HashAlgorithm) (calls : List Insertion) (oid : ObjectID) : Option Insertion :=
  calls.reverse.find? fun call => call.compatOid compat = oid

/-- The file is accepted, and both directions give the partner and the kind of the last call for an
object ID, and nothing for one without a call. -/
def RoundTrips (map : ObjectMap) (calls : List Insertion) (trailer : List UInt8) : Prop :=
  ∃ mmaped, newMmaped (batchFile map calls ++ trailer) map.mem.storage = .ok mmaped ∧
    (∀ oid, oid.algo = map.mem.storage →
      mmaped.mapObject oid map.mem.compat = (lastForStorage map.mem.compat calls oid).map
        (fun call => ⟨call.compatOid map.mem.compat, call.kind⟩) ∧
      mmaped.mapOid oid map.mem.compat = (lastForStorage map.mem.compat calls oid).map
        (Insertion.compatOid map.mem.compat)) ∧
    ∀ oid, oid.algo = map.mem.compat →
      mmaped.mapObject oid map.mem.storage = (lastForCompat map.mem.compat calls oid).map
        (fun call => ⟨call.storageOid map.mem.compat, call.kind⟩) ∧
      mmaped.mapOid oid map.mem.storage = (lastForCompat map.mem.compat calls oid).map
        (Insertion.storageOid map.mem.compat)

def batchOf (storage compat : HashAlgorithm) (calls : List Insertion) : ObjectMemoryMap :=
  calls.foldl (fun batch call => insertInto batch (call.storageOid compat) (call.compatOid compat) call.kind)
    (ObjectMemoryMap.new storage compat)

section Batch

variable {storage compat : HashAlgorithm} {calls : List Insertion}

lemma insert_eq {map : ObjectMap} {batch : ObjectMemoryMap} (hbatch : map.batch = some batch) (call : Insertion) :
    map.insert call.oid1 call.oid2 call.kind true =
      ⟨insertInto map.mem (call.storageOid map.mem.compat) (call.compatOid map.mem.compat) call.kind,
        some (insertInto batch (call.storageOid map.mem.compat) (call.compatOid map.mem.compat) call.kind)⟩ := by
  unfold ObjectMap.insert Insertion.storageOid Insertion.compatOid
  rw [hbatch]
  by_cases hcompat : call.oid1.algo = map.mem.compat
  · rw [if_pos hcompat, if_pos hcompat, if_pos hcompat]
    rfl
  · rw [if_neg hcompat, if_neg hcompat, if_neg hcompat]
    rfl

lemma insertAll_batch {map : ObjectMap} {batch : ObjectMemoryMap} (hbatch : map.batch = some batch) (calls : List Insertion) :
    (map.insertAll calls).batch = some (calls.foldl (fun batch call =>
      insertInto batch (call.storageOid map.mem.compat) (call.compatOid map.mem.compat) call.kind) batch) := by
  induction calls generalizing map batch with
  | nil => exact hbatch
  | cons call calls ih =>
    have hnext := insert_eq hbatch call
    rw [ObjectMap.insertAll, List.foldl_cons, hnext]
    exact ih rfl

lemma batchFile_eq {map : ObjectMap} (hbatch : map.batch = none) (calls : List Insertion) :
    batchFile map calls = (batchOf map.mem.storage map.mem.compat calls).write := by
  have hstart : map.startBatch = ⟨map.mem, some (ObjectMemoryMap.new map.mem.storage map.mem.compat)⟩ := by
    rw [ObjectMap.startBatch, hbatch]
  rw [batchFile, ObjectMap.finishBatch, hstart, insertAll_batch rfl]
  rfl

lemma batchOf_concat (call : Insertion) : batchOf storage compat (calls ++ [call]) =
    insertInto (batchOf storage compat calls) (call.storageOid compat) (call.compatOid compat) call.kind := by
  rw [batchOf, List.foldl_append]
  rfl

lemma algos_batchOf (calls : List Insertion) :
    (batchOf storage compat calls).storage = storage ∧ (batchOf storage compat calls).compat = compat := by
  induction calls using List.reverseRecOn with
  | nil => exact ⟨rfl, rfl⟩
  | append_singleton calls call ih =>
    rw [batchOf_concat]
    exact ih

lemma toCompat_batchOf (calls : List Insertion) (oid : ObjectID) :
    (batchOf storage compat calls).toCompat[oid]? =
      (lastForStorage compat calls oid).map fun call => ⟨call.compatOid compat, call.kind⟩ := by
  induction calls using List.reverseRecOn with
  | nil => exact Std.TreeMap.getElem?_emptyc
  | append_singleton calls call ih =>
    rw [batchOf_concat, lastForStorage, List.reverse_concat, List.find?_cons]
    change ((batchOf storage compat calls).toCompat.insert _ _)[oid]? = _
    rw [Std.TreeMap.getElem?_insert]
    by_cases hsame : call.storageOid compat = oid
    · rw [if_pos (by rw [hsame]; exact ReflCmp.compare_self), decide_eq_true hsame]
      rfl
    · rw [if_neg (fun heq => hsame (LawfulEqCmp.eq_of_compare heq)), decide_eq_false hsame]
      exact ih

lemma toStorage_batchOf (calls : List Insertion) (oid : ObjectID) :
    (batchOf storage compat calls).toStorage[oid]? =
      (lastForCompat compat calls oid).map fun call => ⟨call.storageOid compat, call.kind⟩ := by
  induction calls using List.reverseRecOn with
  | nil => exact Std.TreeMap.getElem?_emptyc
  | append_singleton calls call ih =>
    rw [batchOf_concat, lastForCompat, List.reverse_concat, List.find?_cons]
    change ((batchOf storage compat calls).toStorage.insert _ _)[oid]? = _
    rw [Std.TreeMap.getElem?_insert]
    by_cases hsame : call.compatOid compat = oid
    · rw [if_pos (by rw [hsame]; exact ReflCmp.compare_self), decide_eq_true hsame]
      rfl
    · rw [if_neg (fun heq => hsame (LawfulEqCmp.eq_of_compare heq)), decide_eq_false hsame]
      exact ih

lemma mem_of_last {p : Insertion → Bool} {call : Insertion} (h : calls.reverse.find? p = some call) :
    call ∈ calls ∧ p call = true :=
  ⟨List.mem_reverse.mp (List.mem_of_find?_eq_some h), List.find?_some h⟩

lemma OneToOne.last_iff (h : OneToOne storage compat calls) {call : Insertion} :
    lastForStorage compat calls (call.storageOid compat) = some call ↔
      lastForCompat compat calls (call.compatOid compat) = some call := by
  have hagree : call ∈ calls → lastForStorage compat calls (call.storageOid compat) =
      lastForCompat compat calls (call.compatOid compat) := by
    intro hcall
    refine List.find?_congr fun other hother => ?_
    exact decide_eq_decide.mpr (h.pairs other (List.mem_reverse.mp hother) call hcall)
  constructor
  · intro hlast
    rw [← hagree (mem_of_last hlast).1, hlast]
  · intro hlast
    rw [hagree (mem_of_last hlast).1, hlast]

lemma mem_toList_iff {map : BTreeMap} {oid : ObjectID} {value : MappedObject} :
    (oid, value) ∈ map.toList ↔ map[oid]? = some value :=
  Std.TreeMap.mem_toList_iff_getElem?_eq_some

lemma toCompat_iff {s c : ObjectID} {kind : MapType} : (s, ⟨c, kind⟩) ∈ (batchOf storage compat calls).toCompat.toList ↔
    ∃ call, lastForStorage compat calls s = some call ∧ call.storageOid compat = s ∧ call.compatOid compat = c ∧
      call.kind = kind := by
  rw [mem_toList_iff, toCompat_batchOf, Option.map_eq_some_iff]
  constructor
  · rintro ⟨call, hlast, hvalue⟩
    injection hvalue with hc hkind
    exact ⟨call, hlast, of_decide_eq_true (mem_of_last hlast).2, hc, hkind⟩
  · rintro ⟨call, hlast, -, rfl, rfl⟩
    exact ⟨call, hlast, rfl⟩

lemma toStorage_iff {s c : ObjectID} {kind : MapType} : (c, ⟨s, kind⟩) ∈ (batchOf storage compat calls).toStorage.toList ↔
    ∃ call, lastForCompat compat calls c = some call ∧ call.storageOid compat = s ∧ call.compatOid compat = c ∧
      call.kind = kind := by
  rw [mem_toList_iff, toStorage_batchOf, Option.map_eq_some_iff]
  constructor
  · rintro ⟨call, hlast, hvalue⟩
    injection hvalue with hs hkind
    exact ⟨call, hlast, hs, of_decide_eq_true (mem_of_last hlast).2, hkind⟩
  · rintro ⟨call, hlast, rfl, -, rfl⟩
    exact ⟨call, hlast, rfl⟩

lemma OneToOne.paired (h : OneToOne storage compat calls) (hne : storage ≠ compat) :
    Paired (batchOf storage compat calls) := by
  obtain ⟨hstorage, hcompat⟩ := @algos_batchOf storage compat calls
  refine ⟨by rwa [hstorage, hcompat], ?_, ?_, ?_⟩
  · intro oid hoid
    obtain ⟨⟨c, kind⟩, hmem⟩ := BTreeMap.mem_keyList.mp hoid
    obtain ⟨call, hlast, rfl, -, -⟩ := toCompat_iff.mp hmem
    rw [hstorage]
    exact (h.algos call (mem_of_last hlast).1).1
  · intro oid hoid
    obtain ⟨⟨s, kind⟩, hmem⟩ := BTreeMap.mem_keyList.mp hoid
    obtain ⟨call, hlast, -, rfl, -⟩ := toStorage_iff.mp hmem
    rw [hcompat]
    exact (h.algos call (mem_of_last hlast).1).2
  · intro s c kind
    rw [toCompat_iff, toStorage_iff]
    constructor
    · rintro ⟨call, hlast, rfl, rfl, rfl⟩
      exact ⟨call, h.last_iff.mp hlast, rfl, rfl, rfl⟩
    · rintro ⟨call, hlast, rfl, rfl, rfl⟩
      exact ⟨call, h.last_iff.mpr hlast, rfl, rfl, rfl⟩

lemma size_batchOf (calls : List Insertion) :
    (batchOf storage compat calls).toCompat.size = (calls.map (Insertion.storageOid compat)).dedup.length := by
  rw [← BTreeMap.length_keyList]
  refine List.Perm.length_eq ((List.perm_ext_iff_of_nodup (BTreeMap.nodup_keyList _) (List.nodup_dedup _)).mpr fun oid => ?_)
  rw [List.mem_dedup, List.mem_map, BTreeMap.mem_keyList]
  constructor
  · rintro ⟨⟨c, kind⟩, hmem⟩
    obtain ⟨call, hlast, hs, -, -⟩ := toCompat_iff.mp hmem
    exact ⟨call, (mem_of_last hlast).1, hs⟩
  · rintro ⟨call, hcall, rfl⟩
    have hsome : (lastForStorage compat calls (call.storageOid compat)).isSome :=
      List.find?_isSome.mpr ⟨call, List.mem_reverse.mpr hcall, decide_eq_true rfl⟩
    obtain ⟨last, hlast⟩ := Option.isSome_iff_exists.mp hsome
    exact ⟨⟨last.compatOid compat, last.kind⟩, toCompat_iff.mpr
      ⟨last, hlast, of_decide_eq_true (mem_of_last hlast).2, rfl, rfl⟩⟩

end Batch

section Lookup

variable {map : ObjectMemoryMap} (h : Paired map) (hn : map.toCompat.size < 2 ^ 32) {trailer : List UInt8} {oid : ObjectID}

include h in
lemma mapObject_storage (hoid : oid.algo = map.storage) :
    (map.mmaped trailer).mapObject oid map.compat = map.toCompat[oid]? ∧
      (map.mmaped trailer).mapOid oid map.compat = map.toCompat[oid]?.map MappedObject.oid := by
  have hne : map.compat ≠ oid.algo := by
    rw [hoid]
    exact h.distinct.symm
  rw [MmapedObjectMap.mapObject, MmapedObjectMap.mapOid, if_neg hne]
  cases hvalue : map.toCompat[oid]? with
  | some value =>
    obtain ⟨i, hi⟩ := List.getElem?_of_mem (mem_toList_iff.mpr hvalue)
    have hlook : (map.mmaped trailer).lookUpObject oid = some i := (lookUp_storage h hoid).mpr (keyList_getElem? hi).1
    have hkind : beAt (map.write ++ trailer) (map.kindsOff + i * 4) 4 = value.kind.toU32 :=
      beAt_kinds h (keyList_getElem? hi).2
    have hother : (map.mmaped trailer).oidFromOffset i map.compat = some value.oid := oidFromOffset_compat h hi
    rw [hlook]
    constructor
    · change (MapType.fromU32 (beAt (map.write ++ trailer) (map.kindsOff + i * 4) 4) >>= fun kind =>
        (map.mmaped trailer).oidFromOffset i map.compat >>= fun oid => some (⟨oid, kind⟩ : MappedObject)) = _
      rw [hkind, MapType.fromU32_toU32, hother]
      rfl
    · exact hother
  | none =>
    have hlook : (map.mmaped trailer).lookUpObject oid = none := by
      rw [Option.eq_none_iff_forall_ne_some]
      intro i hi
      have hkey := (lookUp_storage h hoid).mp hi
      obtain ⟨value, hmem⟩ := BTreeMap.mem_keyList.mp (List.mem_of_getElem? hkey)
      rw [mem_toList_iff, hvalue] at hmem
      cases hmem
    rw [hlook]
    exact ⟨rfl, rfl⟩

include h hn in
lemma mapObject_compat (hoid : oid.algo = map.compat) :
    (map.mmaped trailer).mapObject oid map.storage = map.toStorage[oid]? ∧
      (map.mmaped trailer).mapOid oid map.storage = map.toStorage[oid]?.map MappedObject.oid := by
  have hne : map.storage ≠ oid.algo := by
    rw [hoid]
    exact h.distinct
  rw [MmapedObjectMap.mapObject, MmapedObjectMap.mapOid, if_neg hne]
  cases hvalue : map.toStorage[oid]? with
  | some value =>
    obtain ⟨s, kind⟩ := value
    obtain ⟨i, hi⟩ := List.getElem?_of_mem ((h.partner s oid kind).mpr (mem_toList_iff.mpr hvalue))
    have hlook : (map.mmaped trailer).lookUpObject oid = some i := (lookUp_compat h hn hoid).mpr ⟨s, kind, hi⟩
    have hkind : beAt (map.write ++ trailer) (map.kindsOff + i * 4) 4 = kind.toU32 :=
      beAt_kinds h (keyList_getElem? hi).2
    have hother : (map.mmaped trailer).oidFromOffset i map.storage = some s := oidFromOffset_storage h hi
    rw [hlook]
    constructor
    · change (MapType.fromU32 (beAt (map.write ++ trailer) (map.kindsOff + i * 4) 4) >>= fun kind =>
        (map.mmaped trailer).oidFromOffset i map.storage >>= fun oid => some (⟨oid, kind⟩ : MappedObject)) = _
      rw [hkind, MapType.fromU32_toU32, hother]
      rfl
    · exact hother
  | none =>
    have hlook : (map.mmaped trailer).lookUpObject oid = none := by
      rw [Option.eq_none_iff_forall_ne_some]
      intro i hi
      obtain ⟨s, kind, hmem⟩ := (lookUp_compat h hn hoid).mp hi
      have hpartner := (h.partner s oid kind).mp (List.mem_of_getElem? hmem)
      rw [mem_toList_iff, hvalue] at hpartner
      cases hpartner
    rw [hlook]
    exact ⟨rfl, rfl⟩

end Lookup

section Count

variable {map : ObjectMap} {calls : List Insertion} {trailer : List UInt8}

lemma roundTrips_of_few (hbatch : map.batch = none) (hne : map.mem.storage ≠ map.mem.compat)
    (h : OneToOne map.mem.storage map.mem.compat calls) (htrailer : trailer.length = map.mem.storage.rawLen)
    (hn : (calls.map (Insertion.storageOid map.mem.compat)).dedup.length < 2 ^ 32) : RoundTrips map calls trailer := by
  have hpaired := h.paired hne
  obtain ⟨hstorage, hcompat⟩ := @algos_batchOf map.mem.storage map.mem.compat calls
  rw [← @size_batchOf map.mem.storage] at hn
  set batch := batchOf map.mem.storage map.mem.compat calls with hdef
  refine ⟨batch.mmaped trailer, ?_, fun oid hoid => ?_, fun oid hoid => ?_⟩
  · rw [batchFile_eq hbatch, ← hdef, ← hstorage]
    exact newMmaped_write hpaired hn (by rw [hstorage, htrailer])
  · obtain ⟨hobject, hmapped⟩ := @mapObject_storage _ hpaired trailer _ (hoid.trans hstorage.symm)
    rw [hcompat, hdef, toCompat_batchOf] at hobject hmapped
    refine ⟨hobject, hmapped.trans ?_⟩
    rw [Option.map_map]
    rfl
  · obtain ⟨hobject, hmapped⟩ := @mapObject_compat _ hpaired hn trailer _ (hoid.trans hcompat.symm)
    rw [hstorage, hdef, toStorage_batchOf] at hobject hmapped
    refine ⟨hobject, hmapped.trans ?_⟩
    rw [Option.map_map]
    rfl

lemma readFormats_inv {data : List UInt8} {nitems : Nat} {algo algo' : HashAlgorithm}
    {result : Nat × Option Nat × (HashAlgorithm → Option ObjectFormatData)} (hne : algo ≠ algo')
    (hfirst : beAt data 20 4 = algo.formatId) (hsecond : beAt data 36 4 = algo'.formatId)
    (h : readFormats data nitems 0 20 none (fun _ => none) 2 = .ok result) :
    ∃ params, result.2.2 algo = some params ∧ params.shortenedLen = beAt data 24 4 ∧ params.mappingOff = none := by
  rw [readFormats] at h
  obtain ⟨⟨found, dataOff, shortenedLen, fullOff, off⟩, hread, h⟩ := ok_of_bind h
  dsimp only at h
  rw [readFormats] at h
  obtain ⟨⟨found', dataOff', shortenedLen', fullOff', off'⟩, hread', h⟩ := ok_of_bind h
  dsimp only at h
  rw [readFormats] at h
  obtain ⟨⟨hid, hshort⟩, -⟩ := readFormat_inv hread
  obtain ⟨⟨hid', -⟩, -⟩ := readFormat_inv hread'
  rw [hfirst, HashAlgorithm.fromFormatId_formatId] at hid
  rw [hsecond, HashAlgorithm.fromFormatId_formatId] at hid'
  obtain rfl := Option.some.inj hid
  obtain rfl := Option.some.inj hid'
  obtain rfl := Except.ok.inj h
  refine ⟨⟨dataOff, shortenedLen, fullOff, none⟩, ?_, hshort, rfl⟩
  dsimp only
  rw [Function.update_of_ne hne, Function.update_self, if_pos rfl]

lemma newMmaped_inv {memory : ObjectMemoryMap} (h : Paired memory) {mmaped : MmapedObjectMap}
    (hnew : newMmaped (memory.write ++ trailer) memory.storage = .ok mmaped) :
    mmaped.nitems = memory.toCompat.size % 2 ^ 32 ∧
      ∃ params, mmaped.objFormats memory.storage = some params ∧ params.shortenedLen = memory.storageShortLen ∧
        params.mappingOff = none := by
  obtain ⟨offset, metaOff, formats, rfl, hread⟩ := newMmaped_ok hnew
  rw [nobjFormats_eq h] at hread
  obtain ⟨params, hparams, hshort, hmain⟩ := readFormats_inv h.distinct (storageFormat_eq h) (compatFormat_eq h) hread
  exact ⟨@nitems_eq _ trailer h, params, hparams, hshort.trans (storageShort_eq h), hmain⟩

lemma lookUpObject_inv {mmaped : MmapedObjectMap} {oid : ObjectID} {i : Nat} {params : ObjectFormatData}
    (hparams : mmaped.objFormats oid.algo = some params) (hmain : params.mappingOff = none)
    (hshort : 0 < params.shortenedLen ∧ params.shortenedLen ≤ oid.algo.rawLen) (h : mmaped.lookUpObject oid = some i) :
    i < mmaped.nitems ∧
      slice mmaped.memory (params.fullOff + i * oid.algo.rawLen) oid.algo.rawLen = oid.asSlice := by
  rw [MmapedObjectMap.lookUpObject, hparams, Option.bind_eq_bind, Option.bind_some, Option.bind_eq_bind,
    Option.bind_eq_some_iff] at h
  obtain ⟨index, hsearch, hcheck⟩ := h
  rw [hmain] at hcheck
  dsimp only at hcheck
  split at hcheck
  · cases hcheck
  · rename_i hsame
    obtain rfl := Option.some.inj hcheck
    refine ⟨?_, not_not.mp hsame⟩
    obtain ⟨offset, hoffset, rfl⟩ := Option.map_eq_some_iff.mp hsearch
    have hlt := (binarySearchBy_eq_some hoffset).1
    have hwanted : (oid.asSlice.take params.shortenedLen).length = params.shortenedLen := by
      rw [List.length_take, oid.length_asSlice, Nat.min_eq_left hshort.2]
    rw [hwanted]
    refine Nat.div_lt_of_lt_mul (hlt.trans_le ?_)
    rw [slice, List.length_take]
    exact Nat.min_le_left _ _

lemma few_of_roundTrips (hbatch : map.batch = none) (hne : map.mem.storage ≠ map.mem.compat)
    (h : OneToOne map.mem.storage map.mem.compat calls) (hround : RoundTrips map calls trailer) :
    (calls.map (Insertion.storageOid map.mem.compat)).dedup.length < 2 ^ 32 := by
  have hpaired := h.paired hne
  obtain ⟨hstorage, hcompat⟩ := @algos_batchOf map.mem.storage map.mem.compat calls
  obtain ⟨mmaped, hnew, hfind, -⟩ := hround
  rw [batchFile_eq hbatch] at hnew
  rw [← @size_batchOf map.mem.storage]
  set batch := batchOf map.mem.storage map.mem.compat calls with hdef
  rw [← hstorage] at hnew hfind
  obtain ⟨hnitems, params, hparams, hshort, hmain⟩ := newMmaped_inv hpaired hnew
  have hindex : ∀ oid ∈ batch.toCompat.keyList, ∃ i, i < mmaped.nitems ∧
      slice mmaped.memory (params.fullOff + i * batch.storage.rawLen) batch.storage.rawLen = oid.asSlice := by
    intro oid hoid
    have halgo := hpaired.algo_storage oid hoid
    obtain ⟨⟨c, kind⟩, hmem⟩ := BTreeMap.mem_keyList.mp hoid
    obtain ⟨call, hlast, -⟩ := toCompat_iff.mp hmem
    have hmapped := (hfind oid halgo).2
    rw [hlast, MmapedObjectMap.mapOid, if_neg (by rw [halgo, hstorage]; exact hne.symm)] at hmapped
    cases hlook : mmaped.lookUpObject oid with
    | none =>
      rw [hlook] at hmapped
      cases hmapped
    | some i =>
      have hbounds := @findShortNameLen_bounds batch.toCompat batch.storage
      have hinv := @lookUpObject_inv mmaped oid i params (by rw [halgo, hparams]) hmain
        (by rw [hshort, halgo]; exact hbounds) hlook
      rw [halgo] at hinv
      exact ⟨i, hinv⟩
  choose! place hplace using hindex
  have hcount : batch.toCompat.size ≤ mmaped.nitems := by
    have hinj : (batch.toCompat.keyList.map place).Nodup := by
      refine batch.toCompat.nodup_keyList.map_on fun a ha b hb hsame => ?_
      have hslice := (hplace a ha).2
      rw [hsame, (hplace b hb).2] at hslice
      exact (ObjectID.ext_asSlice ((hpaired.algo_storage b hb).trans (hpaired.algo_storage a ha).symm) hslice).symm
    have hsub : batch.toCompat.keyList.map place ⊆ List.range mmaped.nitems := by
      intro i hi
      obtain ⟨oid, hoid, rfl⟩ := List.mem_map.mp hi
      exact List.mem_range.mpr (hplace oid hoid).1
    have hle := (List.subperm_of_subset hinj hsub).length_le
    rwa [List.length_map, List.length_range, BTreeMap.length_keyList] at hle
  rw [hnitems] at hcount
  exact hcount.trans_lt (Nat.mod_lt _ (by norm_num))

def oidOf (algo : HashAlgorithm) (i : Nat) : ObjectID where
  hash := beBytes algo.rawLen i ++ List.replicate (gitMaxRawsz - algo.rawLen) 0
  algo := algo
  length_hash := by
    have hle := rawLen_le algo
    rw [List.length_append, length_beBytes, List.length_replicate]
    omega
  zeroFilled := by
    have hdrop := @List.drop_left UInt8 (beBytes algo.rawLen i) (List.replicate (gitMaxRawsz - algo.rawLen) 0)
    rwa [length_beBytes] at hdrop

/-- The first `n` numbers, paired with themselves. -/
def callsOf (n : Nat) : List Insertion :=
  (List.range n).map fun i => ⟨oidOf .sha256 i, oidOf .sha1 i, .looseObject⟩

def emptyMap : ObjectMap := ⟨ObjectMemoryMap.new .sha256 .sha1, none⟩

lemma oidOf_inj {algo : HashAlgorithm} {i j : Nat} (hi : i < 256 ^ 20) (hj : j < 256 ^ 20) (h : oidOf algo i = oidOf algo j) :
    i = j := by
  have hhash : (oidOf algo i).hash = (oidOf algo j).hash := by rw [h]
  have hfront := (List.append_inj hhash (by rw [length_beBytes, length_beBytes])).1
  have hvalue := congrArg beValue hfront
  have hle : 256 ^ 20 ≤ 256 ^ algo.rawLen := Nat.pow_le_pow_right (by norm_num) (by cases algo <;> decide)
  rwa [beValue_beBytes, beValue_beBytes, Nat.mod_eq_of_lt (hi.trans_le hle), Nat.mod_eq_of_lt (hj.trans_le hle)] at hvalue

lemma oneToOne_callsOf {n : Nat} (hn : n ≤ 256 ^ 20) : OneToOne .sha256 .sha1 (callsOf n) := by
  refine ⟨fun call hcall => ?_, fun a ha b hb => ?_⟩
  · obtain ⟨i, -, rfl⟩ := List.mem_map.mp hcall
    exact ⟨rfl, rfl⟩
  · obtain ⟨i, hi, rfl⟩ := List.mem_map.mp ha
    obtain ⟨j, hj, rfl⟩ := List.mem_map.mp hb
    have hi' := (List.mem_range.mp hi).trans_le hn
    have hj' := (List.mem_range.mp hj).trans_le hn
    constructor
    · intro hsame
      rw [@oidOf_inj .sha256 i j hi' hj' hsame]
    · intro hsame
      rw [@oidOf_inj .sha1 i j hi' hj' hsame]

lemma length_callsOf {n : Nat} (hn : n ≤ 256 ^ 20) :
    ((callsOf n).map (Insertion.storageOid .sha1)).dedup.length = n := by
  have hmap : (callsOf n).map (Insertion.storageOid .sha1) = (List.range n).map (oidOf .sha256) := by
    rw [callsOf, List.map_map]
    rfl
  have hnodup : ((List.range n).map (oidOf .sha256)).Nodup := by
    refine List.nodup_range.map_on fun i hi j hj hsame => ?_
    exact oidOf_inj ((List.mem_range.mp hi).trans_le hn) ((List.mem_range.mp hj).trans_le hn) hsame
  rw [hmap, hnodup.dedup, List.length_map, List.length_range]

/-- A batch is found again if and only if its pairs can be counted in 32 bits. -/
theorem batch_roundTrips_iff (hbatch : map.batch = none) (hne : map.mem.storage ≠ map.mem.compat)
    (h : OneToOne map.mem.storage map.mem.compat calls) (htrailer : trailer.length = map.mem.storage.rawLen) :
    RoundTrips map calls trailer ↔ (calls.map (Insertion.storageOid map.mem.compat)).dedup.length < 2 ^ 32 :=
  ⟨few_of_roundTrips hbatch hne h, roundTrips_of_few hbatch hne h htrailer⟩

/-- With 2^32 pairs the count of the file is 0. -/
theorem batch_not_found : OneToOne .sha256 .sha1 (callsOf (2 ^ 32)) ∧
    ¬ RoundTrips emptyMap (callsOf (2 ^ 32)) (List.replicate 32 0) := by
  have hle : 2 ^ 32 ≤ 256 ^ 20 := by norm_num
  refine ⟨oneToOne_callsOf hle, fun hround => ?_⟩
  have hfew := few_of_roundTrips rfl HashAlgorithm.noConfusion (oneToOne_callsOf hle) hround
  change ((callsOf (2 ^ 32)).map (Insertion.storageOid .sha1)).dedup.length < 2 ^ 32 at hfew
  rw [length_callsOf hle] at hfew
  exact Nat.lt_irrefl _ hfew

theorem batch_roundTrips_two : RoundTrips emptyMap (callsOf 2) (List.replicate 32 0) := by
  refine (batch_roundTrips_iff rfl HashAlgorithm.noConfusion (oneToOne_callsOf (by norm_num)) rfl).mpr ?_
  change ((callsOf 2).map (Insertion.storageOid .sha1)).dedup.length < 2 ^ 32
  rw [length_callsOf (by norm_num)]
  norm_num

end Count

end GitCore.Loose
