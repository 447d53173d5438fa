import GitCore.Graph.RoundTrip
import GitCore.PackIdx.Model

/-!
# Pack indexes are read back

What stands where in the bytes of an index, and what the readers make of it. An index of version 2
is refused when all of its objects have large offsets.
-/

namespace GitCore.PackIdx

open Graph (IsTable firstByte compareSlot)

variable {algo : HashAlgo} {opts : PackIdxOption} {objects sorted : List (PackIdxEntry algo)}

section Sorted

def names (sorted : List (PackIdxEntry algo)) : List (List UInt8) :=
  sorted.map (·.oid.val)

lemma sortBySha_perm (objects : List (PackIdxEntry algo)) : (sortBySha objects).Perm objects :=
  List.mergeSort_perm _ _

lemma names_sortBySha (h : (objects.map (·.oid)).Nodup) : IsTable algo.rawsz (names (sortBySha objects)) := by
  have hle : (sortBySha objects).Pairwise fun a b => a.oid.val ≤ b.oid.val := by
    have := @List.pairwise_mergeSort _ (fun a b : PackIdxEntry algo => decide (a.oid.val ≤ b.oid.val))
      (fun a b c hab hbc => by
        simp only [decide_eq_true_eq] at *
        exact hab.trans hbc)
      (fun a b => by
        simp only [Bool.or_eq_true, decide_eq_true_eq]
        exact le_total _ _) objects
    exact this.imp fun h => by simpa using h
  have hne : (sortBySha objects).Pairwise fun a b => a.oid ≠ b.oid := by
    have := ((sortBySha_perm objects).map (·.oid)).nodup_iff.mpr h
    exact List.pairwise_map.mp this
  refine ⟨List.pairwise_map.mpr ?_, fun oid hoid => ?_⟩
  · exact hle.imp₂ (fun a b hab hne => lt_of_le_of_ne hab fun h => hne (Subtype.ext h)) hne
  · obtain ⟨obj, -, rfl⟩ := List.mem_map.mp hoid
    exact obj.oid.property

lemma appearsTwice_eq_false (h : IsTable algo.rawsz (names sorted)) : appearsTwice sorted = false := by
  have hpair := List.pairwise_map.mp h.sorted
  clear h
  induction sorted with
  | nil => rfl
  | cons a list ih =>
    cases list with
    | nil => rfl
    | cons b list =>
      have hab : a.oid ≠ b.oid := fun h => ((List.pairwise_cons.mp hpair).1 b (by simp)).ne (congrArg Subtype.val h)
      rw [appearsTwice, ih (List.pairwise_cons.mp hpair).2]
      simp [hab]

end Sorted

section Fanout

variable (h : IsTable algo.rawsz (names sorted))

lemma length_fanoutFrom (n i count : Nat) (list : List (List UInt8)) : (Graph.fanoutFrom n i count list).length = n := by
  induction n generalizing i count list with
  | zero => rfl
  | succ n ih => rw [Graph.fanoutFrom, List.length_cons, ih]

lemma length_fanout : (fanout sorted).length = 256 := length_fanoutFrom 256 0 0 _

include h in
lemma fanout_getElem {b : Nat} (hb : b < 256) : ∃ v, (fanout sorted)[b]? = some v ∧ v ≤ sorted.length ∧
    (∀ (i : Nat) (x : List UInt8), (names sorted)[i]? = some x → (i < v ↔ firstByte x ≤ b)) := by
  have hlt : b < (fanout sorted).length := by rwa [length_fanout]
  obtain ⟨hle, hbelow, habove⟩ := Graph.fanout_spec h.sorted hb
  have hvalue : (Graph.writeGraphChunkFanout (names sorted)).getD b 0 = (fanout sorted)[b] := by
    rw [List.getD_eq_getElem?_getD]
    exact congrArg (Option.getD · 0) (List.getElem?_eq_getElem hlt)
  rw [hvalue] at hle hbelow habove
  refine ⟨(fanout sorted)[b], List.getElem?_eq_getElem hlt, by simpa [names] using hle, fun i x hx => ⟨hbelow i x hx, ?_⟩⟩
  intro hbyte
  by_contra hge
  have := habove i x hx (not_lt.mp hge)
  omega

include h in
lemma fanout_mono {b c v v' : Nat} (hbc : b ≤ c) (hc : c < 256) (hb : (fanout sorted)[b]? = some v)
    (hc' : (fanout sorted)[c]? = some v') : v ≤ v' := by
  obtain ⟨w, hw, hle, hiff⟩ := fanout_getElem h (b := b) (by omega)
  obtain ⟨w', hw', -, hiff'⟩ := fanout_getElem h (b := c) (by omega)
  obtain rfl : v = w := by simpa [hb] using hw
  obtain rfl : v' = w' := by simpa [hc'] using hw'
  by_contra hlt
  have hlen : v' < (names sorted).length := by simp only [names, List.length_map]; omega
  have hx := List.getElem?_eq_getElem hlen
  have h1 := (hiff v' _ hx).mp (by omega)
  have h2 := (hiff' v' _ hx).not.mp (by omega)
  omega

include h in
lemma fanout_last : (fanout sorted)[255]? = some sorted.length := by
  obtain ⟨v, hv, hle, hiff⟩ := fanout_getElem h (b := 255) (by omega)
  rw [hv]
  by_contra hne
  have hlen : v < (names sorted).length := by
    simp only [names, List.length_map]
    exact lt_of_le_of_ne hle fun h => hne (congrArg some h)
  have := (hiff v _ (List.getElem?_eq_getElem hlen)).not.mp (lt_irrefl v)
  have := ((names sorted)[v].headD 0).toNat_lt
  simp only [firstByte] at *
  omega

variable {data : List UInt8} {pos : Nat} (hn : sorted.length < 2 ^ 31)
  (hfan : slice data pos (4 * 256) = (fanout sorted).flatMap (beBytes 4))

include h hn hfan in
lemma beAt_fanout {b v : Nat} (hv : (fanout sorted)[b]? = some v) : beAt data (pos + 4 * b) 4 = v := by
  refine beAt_record (by rw [length_fanout]; exact hfan) hv ?_
  obtain ⟨w, hw, hle, -⟩ := fanout_getElem h (b := b) (by
    obtain ⟨hlt, -⟩ := List.getElem?_eq_some_iff.mp hv
    rwa [length_fanout] at hlt)
  obtain rfl : v = w := by simpa [hv] using hw
  norm_num
  omega

include h hn hfan in
lemma checkFanout_eq : checkFanout data pos = some sorted.length := by
  have hall (k : Nat) (hk : k < 256) : (List.range (k + 1)).foldlM (fun nr i =>
      if beAt data (pos + 4 * i) 4 < nr then none else some (beAt data (pos + 4 * i) 4)) 0 = (fanout sorted)[k]? := by
    induction k with
    | zero =>
      obtain ⟨v, hv, -⟩ := fanout_getElem h hk
      have hb := beAt_fanout h hn hfan hv
      simp only [zero_add, List.range_one, List.foldlM_cons, List.foldlM_nil, hb, hv]
      rfl
    | succ k ih =>
      obtain ⟨v, hv, -⟩ := fanout_getElem h hk
      obtain ⟨w, hw, -⟩ := fanout_getElem h (b := k) (by omega)
      have hmono := fanout_mono h (Nat.le_succ k) hk hw hv
      rw [List.range_succ, List.foldlM_append, ih (by omega), hw, hv]
      simp only [List.foldlM_cons, List.foldlM_nil, Option.bind_eq_bind, Option.bind_some,
        beAt_fanout h hn hfan hv, if_neg (not_lt.mpr hmono)]
      rfl
  rw [checkFanout, hall 255 (by omega), fanout_last h]

variable {table stride : Nat}
  (htable : ∀ (i : Nat) (x : List UInt8), (names sorted)[i]? = some x → slice data (table + i * stride) algo.rawsz = x)

include h hn hfan htable in
lemma bsearchHash_spec (hash : ObjectId algo) :
    (∀ i : Nat, (names sorted)[i]? = some hash.val → bsearchHash algo data pos table stride hash = i) ∧
      (hash.val ∉ names sorted → bsearchHash algo data pos table stride hash < 0) := by
  have hbyte : firstByte hash.val < 256 := (hash.val.headD 0).toNat_lt
  obtain ⟨hi, hhi, hhiLe, -⟩ := fanout_getElem h hbyte
  have hentry {b v : Nat} (hv : (fanout sorted)[b]? = some v) :
      (Graph.writeGraphChunkFanout (names sorted)).getD b 0 = v := by
    rw [List.getD_eq_getElem?_getD]
    exact congrArg (Option.getD · 0) hv
  have hlo : (if firstByte hash.val = 0 then 0 else beAt data (pos + 4 * (firstByte hash.val - 1)) 4) =
      if firstByte hash.val = 0 then 0
      else (Graph.writeGraphChunkFanout (names sorted)).getD (firstByte hash.val - 1) 0 := by
    obtain ⟨v, hv, -⟩ := fanout_getElem h (b := firstByte hash.val - 1) (by omega)
    rw [beAt_fanout h hn hfan hv, hentry hv]
  have heq : bsearchHash algo data pos table stride hash = binarySearch (compareSlot (names sorted) hash.val)
      (if firstByte hash.val = 0 then 0
        else (Graph.writeGraphChunkFanout (names sorted)).getD (firstByte hash.val - 1) 0)
      ((Graph.writeGraphChunkFanout (names sorted)).getD (firstByte hash.val) 0) := by
    unfold bsearchHash
    simp only
    rw [hlo, beAt_fanout h hn hfan hhi, hentry hhi]
    refine binarySearch_congr fun i _ hlt => ?_
    have hlen : i < (names sorted).length := by simp only [names, List.length_map]; omega
    rw [compareSlot, htable i _ (List.getElem?_eq_getElem hlen), List.getD_eq_getElem?_getD,
      List.getElem?_eq_getElem hlen, Option.getD_some]
  obtain ⟨hfound, hmissing⟩ := Graph.bsearchHash_spec h hash.val
  have hdef : Graph.bsearchHash (Graph.writeGraphChunkFanout (names sorted)) (names sorted) hash.val =
      if 0 ≤ bsearchHash algo data pos table stride hash
      then some (bsearchHash algo data pos table stride hash).toNat else none := by
    rw [heq]
    rfl
  rw [hdef] at hfound hmissing
  generalize bsearchHash algo data pos table stride hash = z at hfound hmissing
  refine ⟨fun i hi => ?_, fun hout => ?_⟩
  · have := hfound i hi
    split_ifs at this with hz
    have := Option.some_inj.mp this
    omega
  · have := hmissing hout
    split_ifs at this with hz
    exact not_le.mp hz

end Fanout

section Offsets

lemma lt_of_not_large {offset : Nat} (h : needLargeOffset opts offset = false) : offset < 2 ^ 31 := by
  simp only [needLargeOffset, Bool.or_eq_false_iff, decide_eq_false_iff_not, not_not] at h
  have hzero := h.1.1
  rw [Nat.shiftRight_eq_div_pow, Nat.div_eq_zero_iff] at hzero
  omega

lemma length_offsetWords (nr : Nat) (list : List (PackIdxEntry algo)) :
    (offsetWords opts nr list).length = list.length := by
  induction list generalizing nr with
  | nil => rfl
  | cons obj list ih =>
    rw [offsetWords]
    split_ifs <;> rw [List.length_cons, ih, List.length_cons]

lemma largeOffsets_eq (list : List (PackIdxEntry algo)) :
    largeOffsets opts (nrLargeOffset opts list) list =
      (list.filter fun obj => needLargeOffset opts obj.offset).map (·.offset) := by
  induction list with
  | nil => rfl
  | cons obj list ih =>
    by_cases hlarge : needLargeOffset opts obj.offset = true
    · have hcount : nrLargeOffset opts (obj :: list) = nrLargeOffset opts list + 1 := by
        simp [nrLargeOffset, hlarge]
      rw [hcount, largeOffsets, if_pos hlarge, ih,
        List.filter_cons_of_pos (p := fun obj : PackIdxEntry algo => needLargeOffset opts obj.offset) hlarge,
        List.map_cons]
    · have hcount : nrLargeOffset opts (obj :: list) = nrLargeOffset opts list := by
        simp [nrLargeOffset, hlarge]
      rw [hcount, List.filter_cons_of_neg (p := fun obj : PackIdxEntry algo => needLargeOffset opts obj.offset) hlarge, ← ih]
      cases hnr : nrLargeOffset opts list with
      | zero => rw [largeOffsets, largeOffsets]
      | succ nr => rw [largeOffsets, if_neg hlarge]

lemma getElem?_offsetWords {nr i : Nat} {obj : PackIdxEntry algo} (h : sorted[i]? = some obj) :
    (offsetWords opts nr sorted)[i]? = some (if needLargeOffset opts obj.offset
      then 2 ^ 31 ||| (nr + nrLargeOffset opts (sorted.take i)) else obj.offset) := by
  induction sorted generalizing nr i with
  | nil => simp at h
  | cons a list ih =>
    cases i with
    | zero =>
      obtain rfl : a = obj := by simpa using h
      rw [offsetWords]
      split_ifs <;> rfl
    | succ i =>
      have h : list[i]? = some obj := by simpa using h
      rw [offsetWords]
      by_cases ha : needLargeOffset opts a.offset = true
      · rw [if_pos ha, List.getElem?_cons_succ, ih h, List.take_succ_cons]
        have hcount : nrLargeOffset opts (a :: list.take i) = nrLargeOffset opts (list.take i) + 1 := by
          simp [nrLargeOffset, ha]
        rw [hcount, Nat.add_right_comm nr, ← Nat.add_assoc nr]
      · rw [if_neg ha, List.getElem?_cons_succ, ih h, List.take_succ_cons]
        simp [nrLargeOffset, ha]

lemma getElem?_largeOffsets {i : Nat} {obj : PackIdxEntry algo} (h : sorted[i]? = some obj)
    (hlarge : needLargeOffset opts obj.offset = true) :
    (largeOffsets opts (nrLargeOffset opts sorted) sorted)[nrLargeOffset opts (sorted.take i)]? = some obj.offset := by
  rw [largeOffsets_eq]
  have hsplit : sorted = sorted.take i ++ obj :: sorted.drop (i + 1) := by
    obtain ⟨hi, rfl⟩ := List.getElem?_eq_some_iff.mp h
    simp
  have hfilter : sorted.filter (fun obj => needLargeOffset opts obj.offset) =
      (sorted.take i ++ obj :: sorted.drop (i + 1)).filter fun obj => needLargeOffset opts obj.offset := by
    rw [← hsplit]
  rw [hfilter]
  have hlen : nrLargeOffset opts (sorted.take i) =
      (((sorted.take i).filter fun obj => needLargeOffset opts obj.offset).map (·.offset)).length := by
    rw [List.length_map, ← List.countP_eq_length_filter]
    rfl
  rw [List.filter_append, List.filter_cons_of_pos (p := fun obj : PackIdxEntry algo => needLargeOffset opts obj.offset) hlarge,
    List.map_append, List.map_cons, hlen, List.getElem?_append_right le_rfl, Nat.sub_self]
  rfl

lemma nrLargeOffset_le (list : List (PackIdxEntry algo)) : nrLargeOffset opts list ≤ list.length :=
  List.countP_le_length

variable {data : List UInt8} {off32 off64 : Nat}

lemma revOffsets_eq {nr : Nat} (hnr : nr + sorted.length ≤ 2 ^ 31)
    (hwords : slice data off32 (4 * sorted.length) = (offsetWords opts nr sorted).flatMap (beBytes 4))
    (hlarge : slice data off64 (8 * nrLargeOffset opts sorted) =
      (largeOffsets opts (nrLargeOffset opts sorted) sorted).flatMap (beBytes 8)) :
    revOffsets data sorted.length off32 off64 = sorted.map (·.offset) := by
  induction sorted generalizing nr off32 off64 with
  | nil => rfl
  | cons obj list ih =>
    rw [List.length_cons, Nat.mul_succ, Nat.add_comm, offsetWords] at hwords
    rw [List.length_cons] at hnr ⊢
    rw [revOffsets, List.map_cons]
    have hlenWords (m : Nat) : ((offsetWords opts m list).flatMap (beBytes 4)).length = 4 * list.length := by
      rw [length_table (w := 4) fun _ _ => length_beBytes _ _, length_offsetWords]
    by_cases hobj : needLargeOffset opts obj.offset = true
    · rw [if_pos hobj, List.flatMap_cons] at hwords
      obtain ⟨hword, hwords⟩ := slice_split hwords (length_beBytes _ _) (hlenWords _)
      have hlt : 0x80000000 ||| nr < 2 ^ 32 := Nat.or_lt_two_pow (by norm_num) (by omega)
      have hvalue : beAt data off32 4 = 2 ^ 31 ||| nr := by
        rw [beAt, hword, beValue_beBytes]
        exact Nat.mod_eq_of_lt hlt
      have hcount : nrLargeOffset opts (obj :: list) = nrLargeOffset opts list + 1 := by
        simp [nrLargeOffset, hobj]
      rw [hcount, Nat.mul_succ, Nat.add_comm, largeOffsets, if_pos hobj, List.flatMap_cons] at hlarge
      obtain ⟨hfirst, hlarge⟩ := slice_split hlarge (length_beBytes _ _) (by
        rw [length_table (w := 8) fun _ _ => length_beBytes _ _, largeOffsets_eq, List.length_map,
          ← List.countP_eq_length_filter]
        rfl)
      have hoffset : beAt data off64 8 = obj.offset := by
        rw [beAt, hfirst, beValue_beBytes, Nat.mod_eq_of_lt]
        exact obj.offset_lt.trans (by norm_num)
      have hbit : (2 ^ 31 ||| nr) &&& 0x80000000 ≠ 0 := Graph.or_extra_and nr
      simp only [hvalue, hoffset]
      rw [if_neg hbit, @ih _ _ (nr + 1) (by omega) hwords hlarge]
    · rw [if_neg hobj, List.flatMap_cons] at hwords
      obtain ⟨hword, hwords⟩ := slice_split hwords (length_beBytes _ _) (hlenWords _)
      have hlt := lt_of_not_large (by simpa using hobj)
      have hvalue : beAt data off32 4 = obj.offset := by
        rw [beAt, hword, beValue_beBytes]
        exact Nat.mod_eq_of_lt (hlt.trans (by norm_num))
      have hlargeEq := @largeOffsets_eq _ opts (obj :: list)
      rw [List.filter_cons_of_neg (p := fun obj : PackIdxEntry algo => needLargeOffset opts obj.offset) hobj,
        ← largeOffsets_eq] at hlargeEq
      have hcount : nrLargeOffset opts (obj :: list) = nrLargeOffset opts list := by
        simp [nrLargeOffset, hobj]
      rw [hlargeEq, hcount] at hlarge
      have hbit : obj.offset &&& 0x80000000 = 0 := Graph.and_extra_eq_zero hlt
      simp only [hvalue]
      rw [if_pos hbit, @ih _ _ nr (by omega) hwords hlarge]

end Offsets

end GitCore.PackIdx

/-!
# The reverse index is sorted

The radix sort of `sort_revindex` sorts as long as no shift is wider than an `off_t`, and the
positions it ends with are those that `write_rev_file` stores.
-/

namespace GitCore.PackIdx

section Radix

variable {max : Nat} {src dest : List RevindexEntry}

def Before (x y : RevindexEntry) : Prop := x.offset < y.offset ∨ x.offset = y.offset ∧ x.nr < y.nr

lemma Before.le {x y : RevindexEntry} (h : Before x y) : x.offset ≤ y.offset := by
  rcases h with hlt | ⟨heq, -⟩
  · exact hlt.le
  · exact heq.le

/-- The entries are in order, as far as the low `bits` bits of their offsets tell. -/
def SortedBelow (bits : Nat) (l : List RevindexEntry) : Prop :=
  l.Pairwise fun x y => Before ⟨x.offset % 2 ^ bits, x.nr⟩ ⟨y.offset % 2 ^ bits, y.nr⟩

lemma bucketFor_lt (bits : Nat) (e : RevindexEntry) : bucketFor bits e < buckets :=
  Nat.mod_lt _ (by decide)

lemma SortedBelow.pass {bits : Nat} (h : SortedBelow bits src) (hdest : dest.length = src.length) :
    SortedBelow (bits + digitSize) (CountingSort.pass (bucketFor bits) buckets src dest) := by
  refine (CountingSort.pass_pairwise (fun x _ => bucketFor_lt bits x) hdest h).imp fun {x y} hxy => ?_
  simp only [Before] at hxy ⊢
  rw [pow_add, Nat.mod_mul, Nat.mod_mul]
  simp only [bucketFor, Nat.shiftRight_eq_div_pow, buckets] at hxy
  generalize x.offset / 2 ^ bits % 2 ^ digitSize = a at *
  generalize y.offset / 2 ^ bits % 2 ^ digitSize = b at *
  rcases hxy with hlt | ⟨rfl, hle⟩
  · have hx : x.offset % 2 ^ bits < 2 ^ bits := Nat.mod_lt _ (by positivity)
    have hmul : 2 ^ bits * (a + 1) ≤ 2 ^ bits * b := Nat.mul_le_mul_left _ hlt
    rw [Nat.mul_succ] at hmul
    omega
  · omega

lemma SortedBelow.full {bits : Nat} (h : SortedBelow bits src) (hlt : ∀ e ∈ src, e.offset < 2 ^ bits) :
    src.Pairwise Before := by
  refine h.imp_of_mem fun {x y} hx hy hxy => ?_
  rwa [Nat.mod_eq_of_lt (hlt x hx), Nat.mod_eq_of_lt (hlt y hy)] at hxy

lemma sortPasses_spec (hmax : max < 2 ^ 48) {k : Nat} (hk : k ≤ 3) (hsorted : SortedBelow (16 * k) src)
    (hdest : dest.length = src.length) (hle : ∀ e ∈ src, e.offset ≤ max) :
    ∃ out, sortPasses max (16 * k) src dest = some out ∧ out.Perm src ∧ out.Pairwise Before := by
  induction hn : 3 - k generalizing k src dest with
  | zero =>
    obtain rfl : k = 3 := by omega
    have hzero : max >>> (16 * 3) = 0 := by
      rw [Nat.shiftRight_eq_div_pow]
      exact Nat.div_eq_of_lt hmax
    rw [sortPasses, if_neg (by omega), if_pos hzero]
    exact ⟨src, rfl, .refl _, hsorted.full fun e he => (hle e he).trans_lt hmax⟩
  | succ n ih =>
    rw [sortPasses, if_neg (by omega)]
    split_ifs with hzero
    · rw [Nat.shiftRight_eq_div_pow, Nat.div_eq_zero_iff] at hzero
      exact ⟨src, rfl, .refl _, hsorted.full fun e he => (hle e he).trans_lt (hzero.resolve_left (by positivity))⟩
    · have hperm := @CountingSort.pass_perm _ (bucketFor (16 * k)) src buckets dest
        (fun x _ => bucketFor_lt _ x) hdest
      obtain ⟨out, hout, hout', hpair⟩ := @ih _ src (k + 1) (by omega) (hsorted.pass hdest) hperm.length_eq.symm
        (fun e he => hle e (hperm.mem_iff.mp he)) (by omega)
      exact ⟨out, hout, hout'.trans hperm, hpair⟩

def indexEntries (offsets : List Nat) : List RevindexEntry := offsets.zipIdx.map fun (offset, i) => ⟨offset, i⟩

lemma sortRevindex_of_lt {offsets : List Nat} (hmax : max < 2 ^ 48) (hle : ∀ offset ∈ offsets, offset ≤ max) :
    ∃ out, sortRevindex (indexEntries offsets) max = some out ∧ out.Perm (indexEntries offsets) ∧
      out.Pairwise Before := by
  refine sortPasses_spec hmax (Nat.zero_le 3) (List.pairwise_iff_getElem.mpr fun i j hi hj hij => .inr ⟨?_, ?_⟩) rfl
    fun e he => ?_
  · rw [Nat.mul_zero, pow_zero, Nat.mod_one, Nat.mod_one]
  · simpa [indexEntries] using hij
  · obtain ⟨⟨offset, i⟩, hmem, rfl⟩ := List.mem_map.mp he
    exact hle offset (List.mem_of_getElem? (List.mem_zipIdx_iff_getElem?.mp hmem))

lemma sortRevindex_of_ge (hmax : 2 ^ 48 ≤ max) : sortRevindex src max = none := by
  have hpass (bits : Nat) (hbits : bits ≤ 48) (src dest : List RevindexEntry) : sortPasses max bits src dest =
      sortPasses max (bits + 16) (CountingSort.pass (bucketFor bits) buckets src dest) src := by
    have hnonzero : max >>> bits ≠ 0 := by
      have hpow : 2 ^ bits ≤ max := (Nat.pow_le_pow_right (by omega) hbits).trans hmax
      rw [Nat.shiftRight_eq_div_pow]
      exact (Nat.div_pos hpow (by positivity)).ne'
    rw [sortPasses, if_neg (by omega), if_neg hnonzero]
    rfl
  unfold sortRevindex
  rw [hpass 0 (by omega), hpass 16 (by omega), hpass 32 (by omega), hpass 48 (by omega), sortPasses, if_pos (by omega)]

end Radix

section Order

variable {algo : HashAlgo} {objects : List (PackIdxEntry algo)}

lemma packOrder_eq_of_sorted (hoffset : (objects.map (·.offset)).Nodup) {entries : List RevindexEntry}
    (hperm : entries.Perm ((objects.map (·.offset)).zipIdx.map fun (offset, i) => ⟨offset, i⟩))
    (hsorted : entries.Pairwise fun x y => x.offset ≤ y.offset) :
    packOrder objects = entries.map (·.nr) := by
  have hentry {e : RevindexEntry} (he : e ∈ entries) : ∃ h : e.nr < objects.length, objects[e.nr].offset = e.offset := by
    obtain ⟨⟨offset, i⟩, hmem, rfl⟩ := List.mem_map.mp (hperm.mem_iff.mp he)
    have := List.mem_zipIdx_iff_getElem?.mp hmem
    rw [List.getElem?_map, Option.map_eq_some_iff] at this
    obtain ⟨obj, hobj, hoff⟩ := this
    obtain ⟨hlt, rfl⟩ := List.getElem?_eq_some_iff.mp hobj
    exact ⟨hlt, hoff⟩
  have hrange : (entries.map (·.nr)).Perm (List.range objects.length) := by
    refine (hperm.map _).trans ?_
    rw [List.map_map]
    refine List.Perm.of_eq ?_
    refine List.ext_getElem (by simp) fun i hi hi' => ?_
    simp
  refine @List.Perm.eq_of_pairwise _ (fun a b => (objects[a]?.map (·.offset)).getD 0 ≤ (objects[b]?.map (·.offset)).getD 0)
    _ _ ?_ ?_ ?_ ((List.mergeSort_perm _ _).trans hrange.symm)
  · intro a b ha hb hab hba
    have ha' : a < objects.length := List.mem_range.mp ((List.mergeSort_perm _ _).mem_iff.mp ha)
    have hb' : b < objects.length := List.mem_range.mp (hrange.mem_iff.mp hb)
    simp only [List.getElem?_eq_getElem ha', List.getElem?_eq_getElem hb', Option.map_some, Option.getD_some] at hab hba
    have hinj := List.nodup_iff_injective_getElem.mp hoffset
    have := @hinj ⟨a, by simpa using ha'⟩ ⟨b, by simpa using hb'⟩ (by simpa using le_antisymm hab hba)
    exact congrArg Fin.val this
  · have := @List.pairwise_mergeSort _ (fun a b => decide
      ((objects[a]?.map (·.offset)).getD 0 ≤ (objects[b]?.map (·.offset)).getD 0))
      (fun a b c hab hbc => by simp only [decide_eq_true_eq] at *; omega)
      (fun a b => by simp only [Bool.or_eq_true, decide_eq_true_eq]; omega) (List.range objects.length)
    exact this.imp fun h => by simpa using h
  · rw [List.pairwise_map]
    refine hsorted.imp_of_mem fun {x y} hx hy hxy => ?_
    obtain ⟨hx', hxo⟩ := hentry hx
    obtain ⟨hy', hyo⟩ := hentry hy
    simp only [List.getElem?_eq_getElem hx', List.getElem?_eq_getElem hy', Option.map_some, Option.getD_some]
    omega

end Order

end GitCore.PackIdx
