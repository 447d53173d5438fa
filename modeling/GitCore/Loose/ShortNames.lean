import GitCore.Loose.Model

/-!
# Abbreviated tables

The abbreviations of sorted object IDs are sorted and different from each other, and the search in a
table of them finds the position.
-/

namespace GitCore.Loose

open Std

instance : TransCmp compareOids := by
  unfold compareOids
  infer_instance

lemma ObjectID.ext_hash {a b : ObjectID} (hhash : a.hash = b.hash) (halgo : a.algo = b.algo) : a = b := by
  cases a
  cases b
  cases hhash
  cases halgo
  rfl

lemma toU32_injective {a b : HashAlgorithm} (h : a.toU32 = b.toU32) : a = b := by
  cases a <;> cases b <;> first | rfl | cases h

instance : LawfulEqCmp compareOids where
  compare_self := by
    intro a
    exact ReflCmp.compare_self
  eq_of_compare := by
    intro a b h
    obtain ⟨hhash, halgo⟩ := Ordering.then_eq_eq.mp h
    exact ObjectID.ext_hash (LawfulEqCmp.eq_of_compare hhash) (toU32_injective (LawfulEqCmp.eq_of_compare halgo))

lemma rawLen_le (algo : HashAlgorithm) : algo.rawLen ≤ gitMaxRawsz := by
  cases algo <;> decide

lemma ObjectID.length_asSlice (oid : ObjectID) : oid.asSlice.length = oid.algo.rawLen := by
  rw [asSlice, List.length_take, oid.length_hash, Nat.min_eq_left (rawLen_le _)]

lemma ObjectID.hash_eq (oid : ObjectID) :
    oid.hash = oid.asSlice ++ List.replicate (gitMaxRawsz - oid.algo.rawLen) 0 := by
  rw [← oid.zeroFilled, asSlice, List.take_append_drop]

lemma ObjectID.ext_asSlice {a b : ObjectID} (halgo : a.algo = b.algo) (h : a.asSlice = b.asSlice) : a = b := by
  refine ObjectID.ext_hash ?_ halgo
  rw [a.hash_eq, b.hash_eq, h, halgo]

lemma compare_take {a b : List UInt8} (hlength : a.length = b.length) (h : compare a b = .lt) (n : Nat)
    (hn : a.take n ≠ b.take n) : compare (a.take n) (b.take n) = .lt := by
  induction a generalizing b n with
  | nil =>
    cases b with
    | nil => exact absurd rfl hn
    | cons _ _ => cases hlength
  | cons x a ih =>
    cases b with
    | nil => cases hlength
    | cons y b =>
      cases n with
      | zero => exact absurd rfl hn
      | succ n =>
        change List.compareLex compare (x :: a) (y :: b) = .lt at h
        change List.compareLex compare (x :: a.take n) (y :: b.take n) = .lt
        rw [List.compareLex_cons_cons, Ordering.then_eq_lt] at h ⊢
        rcases h with h | ⟨hhead, htail⟩
        · exact Or.inl h
        · refine Or.inr ⟨hhead, ih (Nat.succ_injective hlength) htail n fun hsame => hn ?_⟩
          rw [List.take_succ_cons, List.take_succ_cons, hsame, LawfulEqCmp.eq_of_compare hhead]

section MatchingOffset

variable {a b : ObjectID} {algop : HashAlgorithm}

lemma take_lastMatchingOffsetFrom {i left : Nat} (h : i + left = algop.rawLen + 1) (hne : ∃ j, i ≤ j ∧ j < algop.rawLen ∧
    a.hash.getD j 0 ≠ b.hash.getD j 0) :
    lastMatchingOffsetFrom a b algop i left < algop.rawLen ∧
      a.hash.getD (lastMatchingOffsetFrom a b algop i left) 0 ≠ b.hash.getD (lastMatchingOffsetFrom a b algop i left) 0 := by
  induction left generalizing i with
  | zero =>
    obtain ⟨j, hij, hj, -⟩ := hne
    omega
  | succ left ih =>
    rw [lastMatchingOffsetFrom]
    split
    · rename_i hdiff
      obtain ⟨j, hij, hj, -⟩ := hne
      exact ⟨by omega, hdiff⟩
    · rename_i hsame
      refine ih (by omega) ?_
      obtain ⟨j, hij, hj, hdiff⟩ := hne
      refine ⟨j, Nat.lt_of_le_of_ne hij ?_, hj, hdiff⟩
      rintro rfl
      exact hsame hdiff

lemma lastMatchingOffset_spec (ha : a.algo = algop) (hb : b.algo = algop) (hne : a ≠ b) :
    lastMatchingOffset a b algop < algop.rawLen ∧
      ∀ n, lastMatchingOffset a b algop < n → a.asSlice.take n ≠ b.asSlice.take n := by
  have hdiff : ∃ j, 0 ≤ j ∧ j < algop.rawLen ∧ a.hash.getD j 0 ≠ b.hash.getD j 0 := by
    by_contra hall
    push Not at hall
    refine hne (ObjectID.ext_asSlice (ha.trans hb.symm) ?_)
    refine List.ext_getElem (by rw [a.length_asSlice, b.length_asSlice, ha, hb]) fun j hj _ => ?_
    rw [a.length_asSlice, ha] at hj
    have hbound := rawLen_le algop
    have hsame := hall j (Nat.zero_le j) hj
    rw [List.getD_eq_getElem?_getD, List.getD_eq_getElem?_getD, List.getElem?_eq_getElem (by rw [a.length_hash]; omega),
      List.getElem?_eq_getElem (by rw [b.length_hash]; omega)] at hsame
    simpa only [ObjectID.asSlice, List.getElem_take, Option.getD_some] using hsame
  obtain ⟨hlt, hget⟩ := @take_lastMatchingOffsetFrom a b algop 0 (algop.rawLen + 1) (by omega) hdiff
  refine ⟨hlt, fun n hn hsame => hget ?_⟩
  change lastMatchingOffset a b algop < algop.rawLen at hlt
  change a.hash.getD (lastMatchingOffset a b algop) 0 = b.hash.getD (lastMatchingOffset a b algop) 0
  have hget := congrArg (fun l => l.getD (lastMatchingOffset a b algop) 0) hsame
  simp only [ObjectID.asSlice, ha, hb, List.take_take] at hget
  rwa [List.getD_eq_getElem?_getD, List.getD_eq_getElem?_getD, List.getElem?_take_of_lt (by omega),
    List.getElem?_take_of_lt (by omega), ← List.getD_eq_getElem?_getD, ← List.getD_eq_getElem?_getD] at hget

end MatchingOffset

lemma findShortNameLenFrom_spec {algop : HashAlgorithm} {cur : ObjectID} {iter : List ObjectID} {len : Nat}
    (halgo : ∀ oid ∈ cur :: iter, oid.algo = algop) (hsorted : (cur :: iter).IsChain (compareOids · · = .lt))
    (hlen : len ≤ algop.rawLen) :
    len ≤ findShortNameLenFrom algop cur len iter ∧ findShortNameLenFrom algop cur len iter ≤ algop.rawLen ∧
      (cur :: iter).IsChain fun a b => ∀ n, findShortNameLenFrom algop cur len iter ≤ n →
        a.asSlice.take n ≠ b.asSlice.take n := by
  induction iter generalizing cur len with
  | nil => exact ⟨Nat.le_refl _, hlen, List.isChain_singleton _⟩
  | cons item iter ih =>
    obtain ⟨hlt, hrest⟩ := List.isChain_cons_cons.mp hsorted
    have hne : cur ≠ item := by
      rintro rfl
      rw [show compareOids cur cur = .eq from ReflCmp.compare_self] at hlt
      cases hlt
    obtain ⟨hoffset, hdiff⟩ := lastMatchingOffset_spec (halgo cur (by simp)) (halgo item (by simp)) hne
    rw [findShortNameLenFrom]
    set next := if lastMatchingOffset cur item algop ≥ len then lastMatchingOffset cur item algop + 1 else len with hnext
    have hle : len ≤ next ∧ lastMatchingOffset cur item algop < next ∧ next ≤ algop.rawLen := by
      rw [hnext]
      split <;> omega
    obtain ⟨hstep, hraw, hchain⟩ := @ih item next (fun oid hoid => halgo oid (List.mem_cons_of_mem _ hoid)) hrest hle.2.2
    refine ⟨by omega, hraw, List.isChain_cons_cons.mpr ⟨fun n hn => hdiff n (by omega), hchain⟩⟩

lemma BTreeMap.sorted_keyList (map : BTreeMap) : map.keyList.Pairwise (compareOids · · = .lt) :=
  List.pairwise_map.mpr Std.TreeMap.ordered_keys_toList

lemma BTreeMap.length_keyList (map : BTreeMap) : map.keyList.length = map.size := by
  rw [keyList, List.length_map, Std.TreeMap.length_toList]

lemma BTreeMap.length_valueList (map : BTreeMap) : map.valueList.length = map.size := by
  rw [valueList, List.length_map, Std.TreeMap.length_toList]

section ShortName

variable {map : BTreeMap} {algop : HashAlgorithm}

lemma findShortNameLen_bounds : 0 < findShortNameLen map algop ∧ findShortNameLen map algop ≤ algop.rawLen := by
  have hraw : 1 ≤ algop.rawLen := by cases algop <;> decide
  have hmono : ∀ (iter : List ObjectID) (cur : ObjectID) (len : Nat), len ≤ findShortNameLenFrom algop cur len iter := by
    intro iter
    induction iter with
    | nil => exact fun _ _ => Nat.le_refl _
    | cons item iter ih =>
      intro cur len
      refine Nat.le_trans ?_ (ih item _)
      split <;> omega
  unfold findShortNameLen
  split
  · exact ⟨Nat.one_pos, hraw⟩
  · split
    · exact ⟨Nat.one_pos, hraw⟩
    · rename_i cur iter _
      have hone := hmono iter cur 1
      dsimp only
      split <;> omega

lemma sorted_shortNames (halgo : ∀ oid ∈ map.keyList, oid.algo = algop) :
    (map.keyList.map fun oid => oid.asSlice.take (findShortNameLen map algop)).Pairwise (compare · · = .lt) := by
  have hsorted := map.sorted_keyList
  have hchain : map.keyList.IsChain fun a b =>
      a.asSlice.take (findShortNameLen map algop) ≠ b.asSlice.take (findShortNameLen map algop) := by
    have hlength := map.length_keyList
    unfold findShortNameLen
    rcases hkeys : map.keyList with - | ⟨cur, - | ⟨item, iter⟩⟩
    · exact List.isChain_nil
    · exact List.isChain_singleton _
    · rw [hkeys] at hlength halgo hsorted
      rw [List.length_cons, List.length_cons] at hlength
      obtain ⟨-, hraw, hdiff⟩ := @findShortNameLenFrom_spec algop cur (item :: iter) 1 halgo hsorted.isChain (by cases algop <;> decide)
      rw [if_neg (by omega)]
      dsimp only
      rw [if_neg (by omega)]
      exact hdiff.imp fun a b hab => hab _ (Nat.le_refl _)
  rw [List.pairwise_map]
  have htrans : IsTrans ObjectID fun a b => compare (a.asSlice.take (findShortNameLen map algop))
      (b.asSlice.take (findShortNameLen map algop)) = .lt := ⟨fun a b c hab hbc => TransCmp.lt_trans hab hbc⟩
  rw [← List.isChain_iff_pairwise, List.isChain_iff_getElem]
  intro i hi
  have ha := halgo _ (List.getElem_mem (Nat.lt_of_succ_lt hi))
  have hb := halgo _ (List.getElem_mem hi)
  have hlt := List.pairwise_iff_getElem.mp hsorted i (i + 1) (by omega) hi (by omega)
  have hdiff := List.isChain_iff_getElem.mp hchain i hi
  have hraw : findShortNameLen map algop ≤ algop.rawLen := findShortNameLen_bounds.2
  have hfront : ∀ oid : ObjectID, oid.algo = algop →
      oid.asSlice.take (findShortNameLen map algop) = oid.hash.take (findShortNameLen map algop) := by
    intro oid hoid
    rw [ObjectID.asSlice, hoid, List.take_take, Nat.min_eq_left hraw]
  rw [hfront _ ha, hfront _ hb] at hdiff ⊢
  refine compare_take (by rw [ObjectID.length_hash, ObjectID.length_hash]) ?_ _ hdiff
  rcases Ordering.then_eq_lt.mp hlt with hlt | ⟨hsame, -⟩
  · exact hlt
  · exact absurd (by rw [show map.keyList[i].hash = map.keyList[i + 1].hash from LawfulEqCmp.eq_of_compare hsame]) hdiff

end ShortName

section Table

variable {records : List (List UInt8)} {wanted : List UInt8}

lemma length_flatten_table (hlength : ∀ r ∈ records, r.length = wanted.length) :
    records.flatten.length = wanted.length * records.length := by
  rw [show records.flatten = records.flatMap id from List.flatMap_id.symm, @length_table _ id _ _ hlength]

lemma slice_around (hlength : ∀ r ∈ records, r.length = wanted.length) {index : Nat} (h : index < records.flatten.length) :
    records[index / wanted.length]? =
      some (slice records.flatten (index - index % wanted.length) wanted.length) := by
  have hflat : records.flatten = records.flatMap id := List.flatMap_id.symm
  have htotal := length_flatten_table hlength
  have hlt : index / wanted.length < records.length := Nat.div_lt_of_lt_mul (by rwa [← htotal])
  have hall : slice records.flatten 0 (wanted.length * records.length) = records.flatMap id := by
    rw [slice, List.drop_zero, ← htotal, List.take_length, hflat]
  have hplace := @slice_record _ id _ _ _ _ hlength hall _ _ (List.getElem?_eq_getElem hlt)
  have hdown : index - index % wanted.length = wanted.length * (index / wanted.length) := by
    have hdiv := Nat.div_add_mod index wanted.length
    omega
  rw [Nat.zero_add] at hplace
  rw [hdown, hplace]
  exact List.getElem?_eq_getElem hlt

lemma compare_records (hsorted : records.Pairwise (compare · · = .lt)) {a b : Nat} {r t : List UInt8}
    (ha : records[a]? = some r) (hb : records[b]? = some t) (hab : a < b) : compare r t = .lt := by
  obtain ⟨halt, rfl⟩ := List.getElem?_eq_some_iff.mp ha
  obtain ⟨hblt, rfl⟩ := List.getElem?_eq_some_iff.mp hb
  exact List.pairwise_iff_getElem.mp hsorted a b halt hblt hab

lemma slice_mono (hlength : ∀ r ∈ records, r.length = wanted.length) (hsorted : records.Pairwise (compare · · = .lt))
    {a b : Nat} (hab : a < b) (hb : b < records.flatten.length) :
    slice records.flatten (a - a % wanted.length) wanted.length = slice records.flatten (b - b % wanted.length) wanted.length ∨
      compare (slice records.flatten (a - a % wanted.length) wanted.length)
        (slice records.flatten (b - b % wanted.length) wanted.length) = .lt := by
  have hra := slice_around hlength (hab.trans hb)
  have hrb := slice_around hlength hb
  rcases Nat.eq_or_lt_of_le (Nat.div_le_div_right (c := wanted.length) hab.le) with hsame | hlt
  · rw [hsame, hrb] at hra
    exact Or.inl (Option.some.inj hra).symm
  · exact Or.inr (compare_records hsorted hra hrb hlt)

lemma binarySearchSlice_table (hpos : 0 < wanted.length) (hlength : ∀ r ∈ records, r.length = wanted.length)
    (hsorted : records.Pairwise (compare · · = .lt)) (i : Nat) :
    binarySearchSlice records.flatten wanted = some i ↔ records[i]? = some wanted := by
  have htotal := length_flatten_table hlength
  have hfound : ∀ {j}, binarySearchSlice records.flatten wanted = some j → records[j]? = some wanted := by
    intro j hj
    obtain ⟨index, hindex, rfl⟩ := Option.map_eq_some_iff.mp hj
    obtain ⟨hlt, heq⟩ := binarySearchBy_eq_some hindex
    rw [slice_around hlength hlt, LawfulEqCmp.eq_of_compare heq]
  refine ⟨hfound, fun hi => ?_⟩
  obtain ⟨hilt, -⟩ := List.getElem?_eq_some_iff.mp hi
  have hne : binarySearchBy (fun index => compare (slice records.flatten (index - index % wanted.length) wanted.length) wanted)
      records.flatten.length ≠ none := by
    have hstart : wanted.length * i < records.flatten.length := by
      rw [htotal]
      exact Nat.mul_lt_mul_of_pos_left hilt hpos
    refine binarySearchBy_ne_none (e := wanted.length * i) ?_ ?_ hstart ?_
    · intro a b hab hb hlt
      rcases slice_mono hlength hsorted hab hb with hsame | hstep
      · rwa [hsame]
      · exact TransCmp.lt_trans hstep hlt
    · intro a b hab hb hgt
      rcases slice_mono hlength hsorted hab hb with hsame | hstep
      · rwa [← hsame]
      · exact TransCmp.gt_trans (OrientedCmp.gt_of_lt hstep) hgt
    · have haround := slice_around hlength hstart
      rw [Nat.mul_div_cancel_left i hpos, hi] at haround
      rw [← Option.some.inj haround]
      exact ReflCmp.compare_self
  obtain ⟨index, hindex⟩ := Option.ne_none_iff_exists'.mp hne
  have hj : binarySearchSlice records.flatten wanted = some (index / wanted.length) := by
    rw [binarySearchSlice, hindex]
    rfl
  rw [hj]
  have hself : compare wanted wanted = .eq := ReflCmp.compare_self
  rcases Nat.lt_trichotomy (index / wanted.length) i with hlt | hsame | hlt
  · have hcontra := compare_records hsorted (hfound hj) hi hlt
    rw [hself] at hcontra
    cases hcontra
  · rw [hsame]
  · have hcontra := compare_records hsorted hi (hfound hj) hlt
    rw [hself] at hcontra
    cases hcontra

end Table

end GitCore.Loose
