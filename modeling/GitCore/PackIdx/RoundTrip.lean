import GitCore.PackIdx.IdxFileSpec

/-!
# Indexes and reverse indexes agree

The bytes of `write_idx_file` give back the objects in both versions, and the reverse index made
from them is the one that `write_rev_file` stores.
-/

namespace GitCore.PackIdx

open Graph (IsTable)

variable {algo : HashAlgo} {opts : PackIdxOption} {objects sorted : List (PackIdxEntry algo)}

section Layouts

lemma length_idTable (sorted : List (PackIdxEntry algo)) :
    (sorted.flatMap fun obj => obj.oid.val).length = algo.rawsz * sorted.length :=
  length_table fun obj _ => obj.oid.property

structure Layout2 (opts : PackIdxOption) (sorted : List (PackIdxEntry algo)) (data : List UInt8) : Prop where
  signature : beAt data 0 4 = packIdxSignature
  version : beAt data 4 4 = 2
  fanout : slice data 8 (4 * 256) = (fanout sorted).flatMap (beBytes 4)
  ids : slice data (4 * 256 + 8) (algo.rawsz * sorted.length) = sorted.flatMap fun obj => obj.oid.val
  words : slice data (4 * 256 + (8 + sorted.length * (algo.rawsz + 4))) (4 * sorted.length) =
    (offsetWords opts 0 sorted).flatMap (beBytes 4)
  large : slice data (4 * 256 + (8 + sorted.length * (algo.rawsz + 4)) + 4 * sorted.length)
    (8 * nrLargeOffset opts sorted) = (largeOffsets opts (nrLargeOffset opts sorted) sorted).flatMap (beBytes 8)
  length_eq : data.length = 8 + 4 * 256 + algo.rawsz + algo.rawsz + sorted.length * (algo.rawsz + 4 + 4) +
    8 * nrLargeOffset opts sorted

lemma layout2 (opts : PackIdxOption) (sorted : List (PackIdxEntry algo)) (sha1 : ObjectId algo) :
    Layout2 opts sorted (idxTables opts 2 sorted ++ sha1.val ++ algo.hash (idxTables opts 2 sorted ++ sha1.val)) := by
  let trailer := sha1.val ++ algo.hash (idxTables opts 2 sorted ++ sha1.val)
  have hfan : ((fanout sorted).flatMap (beBytes 4)).length = 4 * 256 := by
    rw [length_table (w := 4) fun _ _ => length_beBytes _ _, length_fanout]
  have hids := length_idTable sorted
  have hcrc : (sorted.flatMap fun obj => beBytes 4 obj.crc32.toNat).length = 4 * sorted.length :=
    length_table fun _ _ => length_beBytes _ _
  have hwords : ((offsetWords opts 0 sorted).flatMap (beBytes 4)).length = 4 * sorted.length := by
    rw [length_table (w := 4) fun _ _ => length_beBytes _ _, length_offsetWords]
  have hlarge : ((largeOffsets opts (nrLargeOffset opts sorted) sorted).flatMap (beBytes 8)).length =
      8 * nrLargeOffset opts sorted := by
    rw [length_table (w := 8) fun _ _ => length_beBytes _ _, largeOffsets_eq, List.length_map,
      ← List.countP_eq_length_filter]
    rfl
  have htrailer : trailer.length = algo.rawsz + algo.rawsz := by
    rw [List.length_append, algo.length_hash, sha1.property]
  have hdata : idxTables opts 2 sorted ++ sha1.val ++ algo.hash (idxTables opts 2 sorted ++ sha1.val) =
      [beBytes 4 packIdxSignature, beBytes 4 2, (fanout sorted).flatMap (beBytes 4),
        sorted.flatMap fun obj => obj.oid.val, sorted.flatMap fun obj => beBytes 4 obj.crc32.toNat,
        (offsetWords opts 0 sorted).flatMap (beBytes 4),
        (largeOffsets opts (nrLargeOffset opts sorted) sorted).flatMap (beBytes 8), trailer].flatten := by
    simp [idxTables, trailer]
  refine ⟨?_, ?_, ?_, ?_, ?_, ?_, ?_⟩
  · rw [beAt, slice_table (i := 0) hdata rfl (by simp) (length_beBytes _ _)]
    decide
  · rw [beAt, slice_table (i := 1) hdata rfl (by simp) (length_beBytes _ _)]
    decide
  · exact slice_table (i := 2) hdata rfl (by simp) hfan
  · exact slice_table (i := 3) hdata rfl (by simp [-List.length_flatMap, hfan]) hids
  · refine slice_table (i := 5) hdata rfl ?_ hwords
    simp only [List.take_succ_cons, List.take_zero, List.map_cons, List.map_nil, List.sum_cons, List.sum_nil,
      length_beBytes, hfan, hids, hcrc]
    ring
  · refine slice_table (i := 6) hdata rfl ?_ hlarge
    simp only [List.take_succ_cons, List.take_zero, List.map_cons, List.map_nil, List.sum_cons, List.sum_nil,
      length_beBytes, hfan, hids, hcrc, hwords]
    ring
  · rw [hdata, List.length_flatten]
    simp only [List.map_cons, List.map_nil, List.sum_cons, List.sum_nil, length_beBytes, hfan, hids, hcrc, hwords,
      hlarge, htrailer]
    ring

structure Layout1 (sorted : List (PackIdxEntry algo)) (data : List UInt8) : Prop where
  fanout : slice data 0 (4 * 256) = (fanout sorted).flatMap (beBytes 4)
  entries : slice data (4 * 256) ((algo.rawsz + 4) * sorted.length) =
    sorted.flatMap fun obj => beBytes 4 obj.offset ++ obj.oid.val
  length_eq : data.length = 4 * 256 + algo.rawsz + algo.rawsz + sorted.length * (algo.rawsz + 4)

lemma length_entry (obj : PackIdxEntry algo) : (beBytes 4 obj.offset ++ obj.oid.val).length = algo.rawsz + 4 := by
  rw [List.length_append, length_beBytes, obj.oid.property, Nat.add_comm]

lemma layout1 {version : Nat} (hversion : version < 2) (opts : PackIdxOption) (sorted : List (PackIdxEntry algo))
    (sha1 : ObjectId algo) : Layout1 sorted
      (idxTables opts version sorted ++ sha1.val ++ algo.hash (idxTables opts version sorted ++ sha1.val)) := by
  let trailer := sha1.val ++ algo.hash (idxTables opts version sorted ++ sha1.val)
  have hfan : ((fanout sorted).flatMap (beBytes 4)).length = 4 * 256 := by
    rw [length_table (w := 4) fun _ _ => length_beBytes _ _, length_fanout]
  have hentries : (sorted.flatMap fun obj => beBytes 4 obj.offset ++ obj.oid.val).length =
      (algo.rawsz + 4) * sorted.length := length_table fun obj _ => length_entry obj
  have htrailer : trailer.length = algo.rawsz + algo.rawsz := by
    rw [List.length_append, algo.length_hash, sha1.property]
  have hdata : idxTables opts version sorted ++ sha1.val ++ algo.hash (idxTables opts version sorted ++ sha1.val) =
      [(fanout sorted).flatMap (beBytes 4), sorted.flatMap fun obj => beBytes 4 obj.offset ++ obj.oid.val,
        trailer].flatten := by
    simp [idxTables, hversion, trailer]
  refine ⟨slice_table (i := 0) hdata rfl rfl hfan, slice_table (i := 1) hdata rfl ?_ hentries, ?_⟩
  · simp only [List.take_succ_cons, List.take_zero, List.map_cons, List.map_nil, List.sum_cons, List.sum_nil, hfan,
      Nat.add_zero]
  · rw [hdata, List.length_flatten]
    simp only [List.map_cons, List.map_nil, List.sum_cons, List.sum_nil, hfan, hentries, htrailer]
    ring

end Layouts

section Load

variable {data : List UInt8} (h : IsTable algo.rawsz (names sorted)) (hn : sorted.length < 2 ^ 31) (packSize : Nat)

include h hn in
lemma loadIdx_of_layout2 (hdata : Layout2 opts sorted data) : loadIdx algo data packSize =
    if sorted.length ≠ 0 ∧ nrLargeOffset opts sorted = sorted.length then .error .wrongV2Size
    else .ok ⟨2, data, sorted.length, packSize⟩ := by
  have hlen := hdata.length_eq
  have hle := @nrLargeOffset_le _ opts sorted
  have hcheck : checkFanout data 8 = some sorted.length := checkFanout_eq h hn hdata.fanout
  have hsize : ¬ data.length < 4 * 256 + algo.rawsz + algo.rawsz := by omega
  unfold loadIdx
  simp only [hdata.signature, hdata.version, if_true, if_neg hsize, bind, Except.bind, pure, Except.pure]
  rw [if_neg (by omega)]
  simp only [Nat.one_lt_ofNat, if_true, hcheck, OfNat.ofNat_ne_one, if_false]
  by_cases hall : sorted.length ≠ 0 ∧ nrLargeOffset opts sorted = sorted.length
  · rw [if_pos hall, if_pos hall.1, if_pos (.inr (by omega))]
    rfl
  · rw [if_neg hall, if_neg]
    rw [not_or]
    refine ⟨by omega, ?_⟩
    split_ifs <;> omega

include h hn in
lemma loadIdx_of_layout1 (hdata : Layout1 sorted data) :
    loadIdx algo data packSize = .ok ⟨1, data, sorted.length, packSize⟩ := by
  have hlen := hdata.length_eq
  have hcheck : checkFanout data 0 = some sorted.length := checkFanout_eq h hn hdata.fanout
  have hsignature : beAt data 0 4 ≠ packIdxSignature := by
    obtain ⟨v, hv, hle, -⟩ := fanout_getElem h (b := 0) (by omega)
    have := beAt_fanout h hn hdata.fanout hv
    rw [Nat.mul_zero, Nat.add_zero] at this
    rw [this]
    unfold packIdxSignature
    omega
  have hsize : ¬ data.length < 4 * 256 + algo.rawsz + algo.rawsz := by omega
  unfold loadIdx
  simp only [if_neg hsignature, if_neg hsize, bind, Except.bind, pure, Except.pure]
  rw [if_neg fun h => hsignature h.1]
  simp only [Nat.lt_irrefl, if_false, hcheck, if_true]
  rw [if_neg (not_not.mpr hlen)]

end Load

section Readers

structure ReadsBack (objects : List (PackIdxEntry algo)) (p : PackedGit) : Prop where
  numObjects : p.numObjects = objects.length
  found : ∀ obj ∈ objects, ∃ n : Nat, bsearchPack algo obj.oid p = n ∧ nthPackedObjectId algo p n = some obj.oid.val ∧
    nthPackedObjectOffset algo p n = some obj.offset
  missing : ∀ oid, (∀ obj ∈ objects, obj.oid ≠ oid) → bsearchPack algo oid p < 0
  extracted : (extractOffsets algo p).map some = (List.range p.numObjects).map (nthPackedObjectOffset algo p)

variable {data : List UInt8} (h : IsTable algo.rawsz (names sorted)) (hn : sorted.length < 2 ^ 31) (packSize : Nat)

lemma names_getElem? {i : Nat} {obj : PackIdxEntry algo} (hobj : sorted[i]? = some obj) :
    (names sorted)[i]? = some obj.oid.val := by
  rw [names, List.getElem?_map, hobj]
  rfl

lemma exists_of_names {i : Nat} {x : List UInt8} (hx : (names sorted)[i]? = some x) :
    ∃ obj, sorted[i]? = some obj ∧ obj.oid.val = x := by
  rw [names, List.getElem?_map] at hx
  exact Option.map_eq_some_iff.mp hx

lemma notMem_names {oid : ObjectId algo} (hoid : ∀ obj ∈ sorted, obj.oid ≠ oid) : oid.val ∉ names sorted := fun hmem => by
  obtain ⟨obj, hobj, heq⟩ := List.mem_map.mp hmem
  exact hoid obj hobj (Subtype.ext heq)

lemma map_range_offsets {read : Nat → Option Nat} (hread : ∀ (i : Nat) (obj : PackIdxEntry algo), sorted[i]? = some obj →
    read i = some obj.offset) : (sorted.map (·.offset)).map some = (List.range sorted.length).map read := by
  refine List.ext_getElem (by simp) fun i hi hi' => ?_
  have hlt : i < sorted.length := by simpa using hi
  simp [hread i _ (List.getElem?_eq_getElem hlt)]

include h hn in
lemma readsBack_of_layout2 (hdata : Layout2 opts sorted data) :
    ReadsBack sorted ⟨2, data, sorted.length, packSize⟩ ∧
      extractOffsets algo ⟨2, data, sorted.length, packSize⟩ = sorted.map (·.offset) := by
  have hslot (i : Nat) (obj : PackIdxEntry algo) (hobj : sorted[i]? = some obj) :
      slice data (4 * 256 + 8 + algo.rawsz * i) algo.rawsz = obj.oid.val :=
    slice_record (fun obj _ => obj.oid.property) hdata.ids hobj
  have htable (i : Nat) (x : List UInt8) (hx : (names sorted)[i]? = some x) :
      slice data (4 * 256 + 8 + i * algo.rawsz) algo.rawsz = x := by
    obtain ⟨obj, hobj, rfl⟩ := exists_of_names hx
    rw [Nat.mul_comm i]
    exact hslot i obj hobj
  have hoffset (i : Nat) (obj : PackIdxEntry algo) (hobj : sorted[i]? = some obj) :
      nthPackedObjectOffset algo ⟨2, data, sorted.length, packSize⟩ i = some obj.offset := by
    have hword := @getElem?_offsetWords _ opts _ 0 _ _ hobj
    have hcount : nrLargeOffset opts (sorted.take i) < 2 ^ 31 :=
      ((nrLargeOffset_le _).trans (List.length_take_le' i sorted)).trans_lt hn
    have hwords : slice data (4 * 256 + (8 + sorted.length * (algo.rawsz + 4))) (4 * (offsetWords opts 0 sorted).length) =
        (offsetWords opts 0 sorted).flatMap (beBytes 4) := by
      rw [length_offsetWords]
      exact hdata.words
    unfold nthPackedObjectOffset
    rw [if_neg (Nat.succ_ne_self 1)]
    simp only
    by_cases hlarge : needLargeOffset opts obj.offset = true
    · rw [if_pos hlarge, Nat.zero_add] at hword
      have hlt : 2 ^ 31 ||| nrLargeOffset opts (sorted.take i) < 256 ^ 4 := Nat.or_lt_two_pow (n := 32) (by norm_num) (by omega)
      have hbit : (2 ^ 31 ||| nrLargeOffset opts (sorted.take i)) &&& 0x80000000 ≠ 0 := Graph.or_extra_and _
      have hmask : (2 ^ 31 ||| nrLargeOffset opts (sorted.take i)) &&& 0x7fffffff = nrLargeOffset opts (sorted.take i) :=
        Graph.or_extra_mask hcount
      rw [beAt_record hwords hword hlt, if_neg hbit, hmask]
      have hentry := getElem?_largeOffsets hobj hlarge
      have hentries : (largeOffsets opts (nrLargeOffset opts sorted) sorted).length = nrLargeOffset opts sorted := by
        rw [largeOffsets_eq, List.length_map, ← List.countP_eq_length_filter]
        rfl
      have hslot : nrLargeOffset opts (sorted.take i) < nrLargeOffset opts sorted := by
        rw [← hentries]
        exact (List.getElem?_eq_some_iff.mp hentry).1
      have hlen := hdata.length_eq
      have hpos := algo.rawsz_pos
      have hmul : sorted.length * (algo.rawsz + 4 + 4) = sorted.length * (algo.rawsz + 4) + 4 * sorted.length := by ring
      rw [if_neg (by omega)]
      refine congrArg some ?_
      rw [show 4 * 256 + (8 + sorted.length * (algo.rawsz + 4)) + (sorted.length * 4 + nrLargeOffset opts (sorted.take i) * 8) =
        4 * 256 + (8 + sorted.length * (algo.rawsz + 4)) + 4 * sorted.length + 8 * nrLargeOffset opts (sorted.take i) by ring]
      exact beAt_record (by rw [hentries]; exact hdata.large) hentry (obj.offset_lt.trans (by norm_num))
    · rw [if_neg hlarge] at hword
      have hlt := lt_of_not_large (by simpa using hlarge)
      have hbit : obj.offset &&& 0x80000000 = 0 := Graph.and_extra_eq_zero hlt
      rw [beAt_record hwords hword (hlt.trans (by norm_num)), if_pos hbit]
  have hsearch := fun oid => bsearchHash_spec h hn hdata.fanout htable oid
  have hextract : extractOffsets algo ⟨2, data, sorted.length, packSize⟩ = sorted.map (·.offset) :=
    @revOffsets_eq _ _ _ _ _ _ 0 (by omega) hdata.words hdata.large
  refine ⟨⟨rfl, fun obj hobj => ?_, fun oid hoid => (hsearch oid).2 (notMem_names hoid), ?_⟩, hextract⟩
  · obtain ⟨i, hi⟩ := List.getElem?_of_mem hobj
    obtain ⟨hlt, -⟩ := List.getElem?_eq_some_iff.mp hi
    refine ⟨i, (hsearch obj.oid).1 i (names_getElem? hi), ?_, hoffset i obj hi⟩
    rw [nthPackedObjectId, if_neg (not_le.mpr hlt), if_neg (Nat.succ_ne_self 1)]
    exact congrArg some (hslot i obj hi)
  · rw [hextract]
    exact map_range_offsets hoffset

include h hn in
lemma readsBack_of_layout1 (hsmall : ∀ obj ∈ sorted, obj.offset < 2 ^ 32) (hdata : Layout1 sorted data) :
    ReadsBack sorted ⟨1, data, sorted.length, packSize⟩ ∧
      extractOffsets algo ⟨1, data, sorted.length, packSize⟩ = sorted.map (·.offset) := by
  have hentry (i : Nat) (obj : PackIdxEntry algo) (hobj : sorted[i]? = some obj) :
      beAt data (4 * 256 + (algo.rawsz + 4) * i) 4 = obj.offset ∧
        slice data (4 * 256 + ((algo.rawsz + 4) * i + 4)) algo.rawsz = obj.oid.val := by
    have hrecord := slice_record (fun obj _ => length_entry obj) hdata.entries hobj
    rw [Nat.add_comm algo.rawsz 4] at hrecord
    obtain ⟨hoff, hoid⟩ := slice_split hrecord (length_beBytes _ _) obj.oid.property
    rw [Nat.add_comm 4 algo.rawsz] at hoff hoid
    refine ⟨?_, by rw [← Nat.add_assoc]; exact hoid⟩
    rw [beAt, hoff, beValue_beBytes, Nat.mod_eq_of_lt]
    exact hsmall obj (List.mem_of_getElem? hobj)
  have htable (i : Nat) (x : List UInt8) (hx : (names sorted)[i]? = some x) :
      slice data (4 * 256 + 4 + i * (algo.rawsz + 4)) algo.rawsz = x := by
    obtain ⟨obj, hobj, rfl⟩ := exists_of_names hx
    rw [← (hentry i obj hobj).2]
    congr 1
    ring
  have hoffset (i : Nat) (obj : PackIdxEntry algo) (hobj : sorted[i]? = some obj) :
      nthPackedObjectOffset algo ⟨1, data, sorted.length, packSize⟩ i = some obj.offset := by
    rw [nthPackedObjectOffset, if_pos rfl]
    exact congrArg some (hentry i obj hobj).1
  have hsearch := fun oid => bsearchHash_spec h hn hdata.fanout htable oid
  have hextract : extractOffsets algo ⟨1, data, sorted.length, packSize⟩ = sorted.map (·.offset) := by
    rw [extractOffsets, if_neg (lt_irrefl _)]
    refine List.ext_getElem (by simp) fun i hi hi' => ?_
    have hlt : i < sorted.length := by simpa using hi
    simpa using (hentry i _ (List.getElem?_eq_getElem hlt)).1
  refine ⟨⟨rfl, fun obj hobj => ?_, fun oid hoid => (hsearch oid).2 (notMem_names hoid), ?_⟩, hextract⟩
  · obtain ⟨i, hi⟩ := List.getElem?_of_mem hobj
    obtain ⟨hlt, -⟩ := List.getElem?_eq_some_iff.mp hi
    refine ⟨i, (hsearch obj.oid).1 i (names_getElem? hi), ?_, hoffset i obj hi⟩
    rw [nthPackedObjectId, if_neg (not_le.mpr hlt), if_pos rfl]
    exact congrArg some (hentry i obj hi).2
  · rw [hextract]
    exact map_range_offsets hoffset

end Readers

section Versions

lemma le_lastObjOffset {obj : PackIdxEntry algo} (h : obj ∈ objects) : obj.offset ≤ lastObjOffset objects := by
  have hfold (list : List (PackIdxEntry algo)) (last : Nat) :
      last ≤ list.foldl (fun last e => if last < e.offset then e.offset else last) last ∧
        ∀ obj ∈ list, obj.offset ≤ list.foldl (fun last e => if last < e.offset then e.offset else last) last := by
    induction list generalizing last with
    | nil => exact ⟨le_rfl, by simp⟩
    | cons e list ih =>
      obtain ⟨hle, hall⟩ := ih (if last < e.offset then e.offset else last)
      have hmax : last ≤ (if last < e.offset then e.offset else last) ∧
          e.offset ≤ if last < e.offset then e.offset else last := by
        split_ifs <;> omega
      refine ⟨hmax.1.trans hle, fun obj hobj => ?_⟩
      rcases List.mem_cons.mp hobj with rfl | hobj
      · exact hmax.2.trans hle
      · exact hall obj hobj
  exact (hfold objects 0).2 obj h

lemma last_small_of_version (h : indexVersion opts objects < 2) : needLargeOffset opts (lastObjOffset objects) = false := by
  unfold indexVersion at h
  split_ifs at h with hlarge
  · omega
  · simpa using hlarge

lemma exists_lastObjOffset (h : objects ≠ []) : ∃ obj ∈ objects, obj.offset = lastObjOffset objects := by
  have hfold (list : List (PackIdxEntry algo)) (last : Nat) :
      list.foldl (fun last e => if last < e.offset then e.offset else last) last = last ∨
        ∃ obj ∈ list, obj.offset = list.foldl (fun last e => if last < e.offset then e.offset else last) last := by
    induction list generalizing last with
    | nil => exact .inl rfl
    | cons e list ih =>
      rw [List.foldl_cons]
      split_ifs with hlt
      · rcases ih e.offset with heq | ⟨obj, hobj, heq⟩
        · exact .inr ⟨e, by simp, heq.symm⟩
        · exact .inr ⟨obj, by simp [hobj], heq⟩
      · rcases ih last with heq | ⟨obj, hobj, heq⟩
        · exact .inl heq
        · exact .inr ⟨obj, by simp [hobj], heq⟩
  rcases hfold objects 0 with heq | hobj
  · obtain ⟨obj, list, rfl⟩ := List.exists_cons_of_ne_nil h
    refine ⟨obj, by simp, ?_⟩
    have := @le_lastObjOffset _ (obj :: list) obj (by simp)
    rw [lastObjOffset, heq] at this ⊢
    omega
  · exact hobj

lemma ReadsBack.perm {objects' : List (PackIdxEntry algo)} {p : PackedGit} (h : ReadsBack objects p)
    (hperm : objects.Perm objects') : ReadsBack objects' p where
  numObjects := h.numObjects.trans hperm.length_eq
  found obj hobj := h.found obj (hperm.mem_iff.mpr hobj)
  missing oid hoid := h.missing oid fun obj hobj => hoid obj (hperm.mem_iff.mp hobj)
  extracted := h.extracted

end Versions

/-- The index is written and loaded, the readers find the objects in it, and the reverse index
made from it has the positions of the `.rev` file. -/
def RoundTrips (opts : PackIdxOption) (objects : List (PackIdxEntry algo)) (sha1 : ObjectId algo) (packSize : Nat) : Prop :=
  ∃ idx sorted p revindex, writeIdxFile opts objects sha1 = some (idx, sorted) ∧
    loadIdx algo idx packSize = .ok p ∧ ReadsBack objects p ∧ createPackRevindex algo p = some revindex ∧
    writeRevFile sorted sha1 = writeRevFileOrder (revindex.entries.map (·.nr)) sha1

section Revindex

variable {p : PackedGit}

lemma createPackRevindex_iff (hoffset : (sorted.map (·.offset)).Nodup) (hin : ∀ obj ∈ sorted, obj.offset < p.packSize)
    (hextract : extractOffsets algo p = sorted.map (·.offset)) (sha1 : ObjectId algo) :
    (∃ revindex, createPackRevindex algo p = some revindex ∧
      writeRevFile sorted sha1 = writeRevFileOrder (revindex.entries.map (·.nr)) sha1) ↔ p.packSize < 2 ^ 48 := by
  have hcreate : createPackRevindex algo p =
      (sortRevindex (indexEntries (sorted.map (·.offset))) p.packSize).map fun sorted => ⟨sorted, p.packSize - algo.rawsz⟩ := by
    rw [createPackRevindex, hextract]
    rfl
  rw [hcreate]
  constructor
  · rintro ⟨revindex, hrev, -⟩
    by_contra hge
    rw [sortRevindex_of_ge (not_lt.mp hge)] at hrev
    cases hrev
  · intro hlt
    obtain ⟨out, hout, hperm, hsorted⟩ := sortRevindex_of_lt hlt fun offset hoff => by
      obtain ⟨obj, hobj, rfl⟩ := List.mem_map.mp hoff
      exact (hin obj hobj).le
    refine ⟨⟨out, p.packSize - algo.rawsz⟩, by rw [hout]; rfl, ?_⟩
    rw [writeRevFile, packOrder_eq_of_sorted hoffset hperm (hsorted.imp Before.le)]

end Revindex

section Example

def exampleAlgo : HashAlgo := ⟨1, Nat.one_pos, 1, fun _ => [0], fun _ => rfl⟩

def exampleEntry (oid : UInt8) (offset : Nat) (h : offset < 2 ^ 63) : PackIdxEntry exampleAlgo :=
  ⟨⟨[oid], rfl⟩, 0, offset, h⟩

end Example

end GitCore.PackIdx
