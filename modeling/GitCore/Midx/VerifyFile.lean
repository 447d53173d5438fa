import GitCore.Midx.VerifySpec

/-!
# When verifying a chain of multi-pack indexes finds every defect

For chains with given ids: a defect of any layer is reported, whatever the recorded offsets are, if no id is twice in
the chain, or if the ids alone make a report.
-/

namespace GitCore.Midx

open GitCore.Graph (ObjectId bsearchHash)

variable {chain base : MidxChain} {m : MultiPackIndex} {pos i : Nat} {oid : ObjectId}
  {qsort : List PairPosVsId → List PairPosVsId} {checksumValid fileExists : Bool}

/-- An entry of the layer records an offset that the index of its pack does not give for its id. -/
def WrongOffset (m : MultiPackIndex) : Prop :=
  ∃ (i : Nat) (oid : ObjectId) (entry : Nat × Nat) (p : PackedGit) (offset : Nat),
    m.chunkOidLookup[i]? = some oid ∧ m.chunkObjectOffsets[i]? = some entry ∧ m.packs[entry.1]? = some (some p) ∧
      m.offset entry.2 = .ok offset ∧ offset ≠ p.findPackEntryOne oid

def Defective (chain : MidxChain) : Prop := ∃ m ∈ chain, ¬InOrder m ∨ WrongOffset m

/-- The check stays inside of the tables, and does not return 0 for a chain with a defect. -/
def FindsDefects (chain : MidxChain) (result : Except Failure Nat) : Prop :=
  result ≠ .error .undefined ∧ result ≠ .error .bug ∧ (Defective chain → result ≠ .ok 0)

def SameIds : MidxChain → MidxChain → Prop :=
  List.Forall₂ fun m m' => m'.chunkOidFanout = m.chunkOidFanout ∧ m'.chunkOidLookup = m.chunkOidLookup ∧
    m'.chunkObjectOffsets.map Prod.fst = m.chunkObjectOffsets.map Prod.fst ∧ m'.packs.length = m.packs.length

/-- No id is twice in the chain, or the ids alone make a report: there are none in the newest layer, it is out of
order, or a lookup fails. -/
def DefectsShow (m : MultiPackIndex) (base : MidxChain) : Prop :=
  (oids (m :: base)).Nodup ∨ m.numObjects = 0 ∨ ¬InOrder m ∨
    ∃ oid ∈ oids (m :: base), bsearchMidx (m :: base) oid = .ok none

variable {chain' : MidxChain}

lemma SameIds.objectsIn_eq (h : SameIds chain chain') : objectsIn chain' = objectsIn chain := by
  induction h with
  | nil => rfl
  | cons hm _ ih => rw [objectsIn_cons, objectsIn_cons, ih, MultiPackIndex.numObjects, MultiPackIndex.numObjects, hm.1]

lemma SameIds.packsIn_eq (h : SameIds chain chain') : packsIn chain' = packsIn chain := by
  induction h with
  | nil => rfl
  | cons hm _ ih =>
    rw [packsIn_cons, packsIn_cons, ih, MultiPackIndex.numPacks, MultiPackIndex.numPacks, hm.2.2.2]

lemma SameIds.oids_eq (h : SameIds chain chain') : oids chain' = oids chain := by
  induction h with
  | nil => rfl
  | cons hm _ ih => rw [oids_cons, oids_cons, ih, hm.2.1]

lemma SameIds.bsearchMidx_eq (h : SameIds chain chain') (oid : ObjectId) :
    bsearchMidx chain' oid = bsearchMidx chain oid := by
  induction h with
  | nil => rfl
  | cons hm hbase ih =>
    rw [bsearchMidx, bsearchMidx, bsearchOneMidx, bsearchOneMidx, hm.1, hm.2.1, ih, objectsIn_eq hbase]

lemma SameIds.fits (h : SameIds chain chain') (hfits : Fits chain) : Fits chain' := by
  refine ⟨by rw [h.objectsIn_eq]; exact hfits.objects, by rw [h.packsIn_eq]; exact hfits.packs, ?_⟩
  have hids := hfits.packIds
  induction h with
  | nil => exact fun m hm => absurd hm List.not_mem_nil
  | cons hm hbase ih =>
    rename_i a b as bs
    obtain ⟨ha, has⟩ := List.forall_mem_cons.mp hids
    have hsmall := hfits.objects
    have hsmallPacks := hfits.packs
    rw [objectsIn_cons] at hsmall
    rw [packsIn_cons] at hsmallPacks
    refine List.forall_mem_cons.mpr ⟨fun entry hentry => ?_, ih ⟨by omega, by omega, has⟩ has⟩
    have hfst : entry.1 ∈ a.chunkObjectOffsets.map Prod.fst := by
      rw [← hm.2.2.1]
      exact List.mem_map_of_mem hentry
    obtain ⟨entry', hentry', heq⟩ := List.mem_map.mp hfst
    rw [← heq, MultiPackIndex.numPacks, hm.2.2.2]
    exact ha entry' hentry'

lemma SameIds.defectsShow {m' : MultiPackIndex} {base' : MidxChain} (h : SameIds (m :: base) (m' :: base'))
    (hshow : DefectsShow m base) : DefectsShow m' base' := by
  obtain ⟨hm, -⟩ := List.forall₂_cons.mp h
  have horder : InOrder m' ↔ InOrder m := by rw [InOrder, InOrder, hm.2.1]
  rw [DefectsShow, h.oids_eq, MultiPackIndex.numObjects, hm.1, horder]
  simp only [h.bsearchMidx_eq]
  exact hshow

lemma mem_oids_of_place (hloaded : ∀ m ∈ chain, Loaded m) (h : Place chain pos m base i)
    (hoid : m.chunkOidLookup[i]? = some oid) : (oids chain)[pos]? = some oid := by
  rw [getElem?_oids hloaded h, hoid]

lemma leadsTo_self (hloaded : ∀ m ∈ chain, Loaded m) (hfits : Fits chain) (hnodup : (oids chain).Nodup)
    (hplace : Place chain pos m base i) (hoid : m.chunkOidLookup[i]? = some oid) {m' : MultiPackIndex} {i' : Nat}
    {entry : Nat × Nat} {p : PackedGit} (h : LeadsTo chain oid m' i' entry p) : m' = m ∧ i' = i := by
  obtain ⟨pos', base', -, hplace'⟩ := h.place
  have hoid' := ((hloaded m' hplace'.mem).getElem?_of_bsearchHash h.found).2
  have hsame : pos' = pos := by
    have hget := mem_oids_of_place hloaded hplace hoid
    have hget' := mem_oids_of_place hloaded hplace' hoid'
    exact (List.getElem?_inj (List.getElem?_eq_some_iff.mp hget').1 hnodup).mp (hget'.trans hget.symm)
  have hfound := midxForObject_of_place hplace hfits.objects
  rw [← hsame, midxForObject_of_place hplace' hfits.objects] at hfound
  obtain ⟨hm, hrest⟩ := Prod.mk.inj (Except.ok.inj hfound)
  exact ⟨hm, (Prod.mk.inj hrest).2⟩

lemma not_defective (hloaded : ∀ m ∈ chain, Loaded m) (hfits : Fits chain) (hnodup : (oids chain).Nodup)
    (hright : ∀ oid ∈ oids chain, FoundRight chain oid) : ¬Defective chain := by
  rintro ⟨m, hm, hdefect⟩
  obtain ⟨newer, base, rfl⟩ := List.append_of_mem hm
  have hself : ∀ (i : Nat) (oid : ObjectId), m.chunkOidLookup[i]? = some oid →
      ∃ entry p, LeadsTo (newer ++ m :: base) oid m i entry p ∧ m.offset entry.2 = .ok (p.findPackEntryOne oid) := by
    intro i oid hoid
    have hlt : i < m.numObjects := by
      rw [← (hloaded m hm).lookup_length]
      exact (List.getElem?_eq_some_iff.mp hoid).1
    have hplace : Place (newer ++ m :: base) (objectsIn base + i) m base i :=
      ⟨List.suffix_append newer (m :: base), rfl, hlt⟩
    obtain ⟨m', i', entry, p, hleads, hoffset⟩ :=
      hright oid (List.mem_of_getElem? (mem_oids_of_place hloaded hplace hoid))
    obtain ⟨rfl, rfl⟩ := leadsTo_self hloaded hfits hnodup hplace hoid hleads
    exact ⟨entry, p, hleads, hoffset⟩
  obtain horder | ⟨i, oid, entry, p, offset, hoid, hentry, hpack, hoffset, hwrong⟩ := hdefect
  · refine horder (inOrder_of_self (hloaded m hm) fun i oid hoid => ?_)
    obtain ⟨entry, p, hleads, -⟩ := hself i oid hoid
    exact hleads.found
  · obtain ⟨entry', p', hleads, hright⟩ := hself i oid hoid
    obtain rfl : entry' = entry := Option.some.inj (hleads.recorded.symm.trans hentry)
    obtain rfl : p' = p := Option.some.inj (Option.some.inj (hleads.pack.symm.trans hpack))
    exact hwrong (Except.ok.inj (hoffset.symm.trans hright))

lemma verifyReports_spec (hqsort : ∀ pairs, (qsort pairs).Perm pairs) (hloaded : ∀ m' ∈ m :: base, Loaded m')
    (hpacks : ∀ m' ∈ m :: base, PacksLoad m') (hfits : Fits (m :: base)) :
    DiesOr (verifyReports qsort m base checksumValid) fun reports => reports = [] →
      m.numObjects ≠ 0 ∧ InOrder m ∧ ∀ oid ∈ oids (m :: base), FoundRight (m :: base) oid := by
  by_cases hobjects : m.numObjects = 0
  · have hgather : gather (checkPack (m :: base)) (List.range (u32 (packsIn (m :: base)))) =
        .ok ((List.range (u32 (packsIn (m :: base)))).flatMap fun _ => []) := by
      refine gather_eq fun i hi => ?_
      rw [u32_of_lt hfits.packs] at hi
      rw [checkPack, (prepareMidxPack_eq hpacks hfits.packs (List.mem_range.mp hi)).1]
      rfl
    rw [verifyReports, hgather, ok_bind, if_pos hobjects]
    exact .ok fun hnil => absurd (List.append_eq_nil_iff.mp hnil).2 (List.cons_ne_nil _ _)
  · obtain ⟨pairs, hcover, hids, hverify⟩ := @verifyReports_eq _ _ _ checksumValid hqsort hloaded hpacks hfits
      hobjects
    rw [hverify]
    obtain hdied | ⟨entries, hentries, hright⟩ := @checkEntries_spec _ hloaded hpacks hfits _ none
      (fun l hl => by cases hl) fun pair hpair => ⟨hids pair hpair, (hcover pair.pos).mpr ⟨pair, hpair, rfl⟩⟩
    · rw [hdied]
      exact .inl rfl
    · rw [hentries]
      refine .ok fun hnil => ⟨hobjects, ?_, fun oid hoid => ?_⟩
      · exact (orderReports_eq_nil_iff (hloaded m List.mem_cons_self)).mp
          (List.append_eq_nil_iff.mp (List.append_eq_nil_iff.mp hnil).1).2
      · obtain ⟨pos, hget⟩ := List.mem_iff_getElem?.mp hoid
        have hpos : pos < objectsIn (m :: base) := by
          rw [← length_oids hloaded]
          exact (List.getElem?_eq_some_iff.mp hget).1
        obtain ⟨pair, hpair, rfl⟩ := (hcover pos).mp hpos
        exact hright (List.append_eq_nil_iff.mp hnil).2 pair hpair oid hget

lemma findsDefects_of_show (hqsort : ∀ pairs, (qsort pairs).Perm pairs) (hloaded : ∀ m' ∈ m :: base, Loaded m')
    (hpacks : ∀ m' ∈ m :: base, PacksLoad m') (hfits : Fits (m :: base)) (hshow : DefectsShow m base) :
    FindsDefects (m :: base) (verifyMidxFile qsort fileExists checksumValid (m :: base)) := by
  rw [verifyMidxFile]
  obtain hdied | ⟨reports, hreports, hspec⟩ := @verifyReports_spec _ _ _ checksumValid hqsort hloaded hpacks hfits
  · rw [hdied]
    exact ⟨by decide, by decide, fun _ h => by cases h⟩
  · rw [hreports]
    have hfails : ∀ failure, (.ok reports >>= fun reports => pure (if reports = [] then 0 else 1) : Except Failure Nat) ≠
        .error failure := fun failure h => by cases h
    refine ⟨hfails .undefined, hfails .bug, fun hdefect hzero => ?_⟩
    have hnil : reports = [] := by
      by_contra hne
      rw [ok_bind, if_neg hne] at hzero
      exact Nat.one_ne_zero (Except.ok.inj hzero)
    obtain ⟨hobjects, horder, hright⟩ := hspec hnil
    obtain hnodup | hnone | hno | ⟨oid, hoid, hfail⟩ := hshow
    · exact not_defective hloaded hfits hnodup hright hdefect
    · exact hobjects hnone
    · exact hno horder
    · obtain ⟨m', i', entry, p, hleads, -⟩ := hright oid hoid
      obtain ⟨pos, base', hpos, -⟩ := hleads.place
      rw [hpos] at hfail
      cases hfail

def packAt (offset : Nat) : PackedGit where
  isPackValid := true
  badObjects := fun _ => false
  opensIndex := true
  findPackEntryOne := fun _ => offset

def withOffsetsFrom (offsets : Nat → Nat) (below : Nat) (m : MultiPackIndex) : MultiPackIndex :=
  { m with
    chunkObjectOffsets := m.chunkObjectOffsets.mapIdx fun i entry => (entry.1, offsets (below + i))
    chunkLargeOffsets := none
    packs := List.replicate m.packs.length (some (packAt 12)) }

def withOffsets (offsets : Nat → Nat) : MidxChain → MidxChain
  | [] => []
  | m :: base => withOffsetsFrom offsets (objectsIn base) m :: withOffsets offsets base

variable {offsets : Nat → Nat}

lemma sameIds_withOffsets : SameIds chain (withOffsets offsets chain) := by
  induction chain with
  | nil => exact .nil
  | cons m base ih =>
    refine .cons ⟨rfl, rfl, ?_, List.length_replicate⟩ ih
    apply List.ext_getElem?
    intro i
    simp only [withOffsetsFrom, List.getElem?_map, List.getElem?_mapIdx, Option.map_map]
    rfl

lemma loaded_withOffsets (hloaded : ∀ m ∈ chain, Loaded m) : ∀ m ∈ withOffsets offsets chain, Loaded m := by
  induction chain with
  | nil => exact fun m hm => absurd hm List.not_mem_nil
  | cons m base ih =>
    obtain ⟨hm, hbase⟩ := List.forall_mem_cons.mp hloaded
    exact List.forall_mem_cons.mpr ⟨⟨hm.fanout_length, hm.fanout_sorted, hm.lookup_length,
      List.length_mapIdx.trans hm.offsets_length⟩, ih hbase⟩

lemma packsLoad_withOffsets : ∀ m ∈ withOffsets offsets chain, PacksLoad m := by
  induction chain with
  | nil => exact fun m hm => absurd hm List.not_mem_nil
  | cons m base ih =>
    exact List.forall_mem_cons.mpr ⟨fun slot hslot => ⟨packAt 12, List.eq_of_mem_replicate hslot, rfl, rfl⟩, ih⟩

lemma recorded_withOffsets (h : Place (withOffsets offsets chain) pos m base i) {entry : Nat × Nat}
    (hentry : m.chunkObjectOffsets[i]? = some entry) :
    m.offset entry.2 = .ok (offsets pos) ∧ ∀ (k : Nat) (p : PackedGit), m.packs[k]? = some (some p) → p = packAt 12 := by
  have hlayer : ∃ old, m = withOffsetsFrom offsets (objectsIn base) old := by
    have hsuffix := h.suffix
    clear h
    induction chain with
    | nil => exact absurd (List.suffix_nil.mp hsuffix) (List.cons_ne_nil m base)
    | cons newer rest ih =>
      obtain heq | hrest := List.suffix_cons_iff.mp hsuffix
      · obtain ⟨rfl, rfl⟩ := List.cons.inj heq
        exact ⟨newer, by rw [sameIds_withOffsets.objectsIn_eq]⟩
      · exact ih hrest
  obtain ⟨old, rfl⟩ := hlayer
  simp only [withOffsetsFrom, List.getElem?_mapIdx, Option.map_eq_some_iff] at hentry
  obtain ⟨oldEntry, -, rfl⟩ := hentry
  refine ⟨by rw [h.pos_eq]; rfl, fun k p hp => ?_⟩
  exact Option.some.inj (List.eq_of_mem_replicate (List.mem_of_getElem? hp))

lemma verifyMidxFile_of_right (hqsort : ∀ pairs, (qsort pairs).Perm pairs) (hloaded : ∀ m' ∈ m :: base, Loaded m')
    (hpacks : ∀ m' ∈ m :: base, PacksLoad m') (hfits : Fits (m :: base)) (hobjects : m.numObjects ≠ 0)
    (horder : InOrder m)
    (hright : ∀ oid ∈ oids (m :: base), ∃ m' i entry p, LeadsTo (m :: base) oid m' i entry p ∧
      p.isPackValid = true ∧ p.opensIndex = true ∧ p.badObjects oid = false ∧
      m'.offset entry.2 = .ok (p.findPackEntryOne oid)) :
    verifyMidxFile qsort fileExists true (m :: base) = .ok 0 := by
  obtain ⟨pairs, hcover, hids, hverify⟩ := @verifyReports_eq _ _ _ true hqsort hloaded hpacks hfits hobjects
  have hchecks : ∀ pair ∈ pairs, checkEntry (m :: base) pair.pos = .ok ([], false) := by
    intro pair hpair
    obtain ⟨m', base', i, hplace⟩ := exists_place ((hcover pair.pos).mpr ⟨pair, hpair, rfl⟩)
    have hlt : i < m'.chunkOidLookup.length := by
      rw [(hloaded m' hplace.mem).lookup_length]
      exact hplace.lt
    have hget := List.getElem?_eq_getElem hlt
    obtain ⟨m'', i'', entry, p, hleads, hvalid, hopens, hbad, hoffset⟩ :=
      hright _ (List.mem_of_getElem? (mem_oids_of_place hloaded hplace hget))
    exact checkEntry_of_right hfits hplace hget hleads hvalid hopens hbad hoffset
  rw [verifyMidxFile, hverify, checkEntries_of_right hpacks hfits (fun l hl => by cases hl)
    fun pair hpair => ⟨hids pair hpair, hchecks pair hpair⟩,
    (orderReports_eq_nil_iff (hloaded _ List.mem_cons_self)).mpr horder]
  rfl

lemma exists_hidden (hqsort : ∀ pairs, (qsort pairs).Perm pairs) (hloaded : ∀ m' ∈ m :: base, Loaded m')
    (hfits : Fits (m :: base)) (hshow : ¬DefectsShow m base) :
    ∃ chain', SameIds (m :: base) chain' ∧ (∀ m' ∈ chain', Loaded m') ∧ (∀ m' ∈ chain', PacksLoad m') ∧
      Defective chain' ∧ verifyMidxFile qsort fileExists true chain' = .ok 0 := by
  obtain ⟨htwice, hrest⟩ := not_or.mp hshow
  obtain ⟨hobjects, hrest⟩ := not_or.mp hrest
  obtain ⟨horder, hfail⟩ := not_or.mp hrest
  have hfound : ∀ oid ∈ oids (m :: base), bsearchMidx (m :: base) oid ≠ .ok none :=
    fun oid hoid hnone => hfail ⟨oid, hoid, hnone⟩
  -- The lookup of an id that is at two positions does not lead to one of them.
  have hwrong : ∃ wrong oid, (oids (m :: base))[wrong]? = some oid ∧
      bsearchMidx (m :: base) oid ≠ .ok (some wrong) := by
    rw [List.nodup_iff_getElem?_ne_getElem?] at htwice
    simp only [not_forall, not_not] at htwice
    obtain ⟨i, j, hij, hj, hsame⟩ := htwice
    have hget := List.getElem?_eq_getElem hj
    by_cases hleads : bsearchMidx (m :: base) (oids (m :: base))[j] = .ok (some j)
    · refine ⟨i, _, hsame.trans hget, fun hi => ?_⟩
      rw [hleads] at hi
      exact absurd (Option.some.inj (Except.ok.inj hi)) hij.ne'
    · exact ⟨j, _, hget, hleads⟩
  obtain ⟨wrong, oid, hoid, hleads⟩ := hwrong
  set offsets : Nat → Nat := fun pos => if pos = wrong then 13 else 12 with hoffsets
  have hsame : SameIds (m :: base) (withOffsets offsets (m :: base)) := sameIds_withOffsets
  have hloaded' := @loaded_withOffsets _ offsets hloaded
  have hpacks' : ∀ m' ∈ withOffsets offsets (m :: base), PacksLoad m' := packsLoad_withOffsets
  have hfits' := hsame.fits hfits
  refine ⟨withOffsets offsets (m :: base), hsame, hloaded', hpacks', ?_, ?_⟩
  · have hpos : wrong < objectsIn (withOffsets offsets (m :: base)) := by
      rw [hsame.objectsIn_eq, ← length_oids hloaded]
      exact (List.getElem?_eq_some_iff.mp hoid).1
    obtain ⟨m', base', i, hplace⟩ := exists_place hpos
    have hlt : i < m'.chunkObjectOffsets.length := by
      rw [(hloaded' m' hplace.mem).offsets_length]
      exact hplace.lt
    have hentry := List.getElem?_eq_getElem hlt
    obtain ⟨p, hp, -, -⟩ := exists_pack (hpacks' m' hplace.mem)
      (hfits'.packIds m' hplace.mem _ (List.getElem_mem hlt))
    obtain ⟨hoffset, hpack⟩ := recorded_withOffsets hplace hentry
    have hoid' : m'.chunkOidLookup[i]? = some oid := by
      rw [← getElem?_oids hloaded' hplace, hsame.oids_eq, hoid]
    refine ⟨m', hplace.mem, .inr ⟨i, oid, _, p, _, hoid', hentry, hp, hoffset, ?_⟩⟩
    rw [hpack _ p hp, hoffsets]
    dsimp only [packAt]
    rw [if_pos rfl]
    decide
  · rw [withOffsets] at hsame hloaded' hpacks' hfits' ⊢
    have horder' : InOrder (withOffsetsFrom offsets (objectsIn base) m) := not_not.mp horder
    refine verifyMidxFile_of_right hqsort hloaded' hpacks' hfits' hobjects horder' fun oid' hoid' => ?_
    rw [hsame.oids_eq] at hoid'
    obtain ⟨m', i, entry, p, hleads', hvalid, hopens⟩ := exists_leadsTo hloaded' hpacks' hfits'
      (by rw [hsame.bsearchMidx_eq]; exact hfound oid' hoid')
    obtain ⟨pos, base', hpos, hplace⟩ := hleads'.place
    obtain ⟨hoffset, hpack⟩ := @recorded_withOffsets (m :: base) _ _ _ _ _ hplace _ hleads'.recorded
    obtain rfl := hpack _ p hleads'.pack
    have hne : pos ≠ wrong := by
      rintro rfl
      have hget := mem_oids_of_place hloaded' hplace
        ((hloaded' m' hplace.mem).getElem?_of_bsearchHash hleads'.found).2
      rw [hsame.oids_eq, hoid] at hget
      rw [← Option.some.inj hget, hsame.bsearchMidx_eq] at hpos
      exact hleads hpos
    refine ⟨m', i, entry, packAt 12, hleads', hvalid, hopens, rfl, ?_⟩
    rw [hoffset, hoffsets]
    dsimp only [packAt]
    rw [if_neg hne]

def fanoutOf (count : Nat → Nat) : List Nat := (List.range 256).map count

lemma length_fanoutOf (count : Nat → Nat) : (fanoutOf count).length = 256 := by
  rw [fanoutOf, List.length_map, List.length_range]

lemma pairwise_fanoutOf {count : Nat → Nat} (h : Monotone count) : (fanoutOf count).Pairwise (· ≤ ·) :=
  List.pairwise_map.mpr (List.pairwise_lt_range.imp fun hlt => h hlt.le)

lemma getD_fanoutOf (count : Nat → Nat) {b : Nat} (hb : b < 256) : (fanoutOf count).getD b 0 = count b := by
  rw [List.getD_eq_getElem?_getD, fanoutOf, List.getElem?_map, List.getElem?_range hb]
  rfl

def exampleOid (b : UInt8) : ObjectId := List.replicate 20 b

def exampleLayer (count : Nat → Nat) (first second : UInt8) : MultiPackIndex where
  chunkOidFanout := fanoutOf count
  chunkOidLookup := [exampleOid first, exampleOid second]
  chunkObjectOffsets := [(0, 12), (0, 12)]
  chunkLargeOffsets := none
  packs := [some (packAt 12)]

def upperLayer : MultiPackIndex := exampleLayer (fun b => min b 2) 1 2

def lowerLayer : MultiPackIndex := exampleLayer (fun b => min (2 * b) 2) 2 1

lemma numObjects_exampleLayer {count : Nat → Nat} (hlast : count 255 = 2) (first second : UInt8) :
    (exampleLayer count first second).numObjects = 2 := (getD_fanoutOf count (by decide)).trans hlast

lemma loaded_exampleLayer {count : Nat → Nat} (hcount : Monotone count) (hlast : count 255 = 2) (first second : UInt8) :
    Loaded (exampleLayer count first second) := by
  have hobjects := numObjects_exampleLayer hlast first second
  exact ⟨length_fanoutOf count, pairwise_fanoutOf hcount, hobjects.symm, hobjects.symm⟩

lemma loaded_example : ∀ m ∈ [upperLayer, lowerLayer], Loaded m := by
  refine List.forall_mem_cons.mpr ⟨loaded_exampleLayer (fun a b hab => ?_) (by decide) _ _,
    List.forall_mem_singleton.mpr (loaded_exampleLayer (fun a b hab => ?_) (by decide) _ _)⟩
  · exact min_le_min_right 2 hab
  · exact min_le_min_right 2 (Nat.mul_le_mul_left 2 hab)

lemma packsLoad_example : ∀ m ∈ [upperLayer, lowerLayer], PacksLoad m := by
  have hpack : ∀ slot ∈ [some (packAt 12)], ∃ p : PackedGit, slot = some p ∧ p.isPackValid = true ∧
      p.opensIndex = true := List.forall_mem_singleton.mpr ⟨packAt 12, rfl, rfl, rfl⟩
  exact List.forall_mem_cons.mpr ⟨hpack, List.forall_mem_singleton.mpr hpack⟩

lemma numObjects_example : upperLayer.numObjects = 2 ∧ lowerLayer.numObjects = 2 :=
  ⟨numObjects_exampleLayer (by decide) 1 2, numObjects_exampleLayer (by decide) 2 1⟩

lemma objectsIn_example : objectsIn [lowerLayer] = 2 ∧ objectsIn [upperLayer, lowerLayer] = 4 := by
  rw [objectsIn_cons, objectsIn_cons, numObjects_example.1, numObjects_example.2]
  exact ⟨rfl, rfl⟩

lemma fits_example : Fits [upperLayer, lowerLayer] := by
  have hids : ∀ entry ∈ [((0 : Nat), (12 : Nat)), (0, 12)], entry.1 < 1 := by decide
  refine ⟨?_, by decide, List.forall_mem_cons.mpr ⟨hids, List.forall_mem_singleton.mpr hids⟩⟩
  rw [objectsIn_example.2]
  decide

lemma fanoutRange_fanoutOf (count : Nat → Nat) (oid : ObjectId) (h : (oid.headD 0).toNat ≠ 0) :
    fanoutRange (fanoutOf count) oid = (count ((oid.headD 0).toNat - 1), count (oid.headD 0).toNat) := by
  rw [fanoutRange, if_neg h, getD_fanoutOf count ((Nat.sub_le _ _).trans_lt (firstByte_lt oid)),
    getD_fanoutOf count (firstByte_lt oid)]

lemma bsearchHash_single {m : MultiPackIndex} {oid : ObjectId} {i : Nat}
    (hlo : (fanoutRange m.chunkOidFanout oid).1 = i) (hhi : (fanoutRange m.chunkOidFanout oid).2 = i + 1)
    (hsame : Graph.compareSlot m.chunkOidLookup oid i = 0) :
    bsearchHash m.chunkOidFanout m.chunkOidLookup oid = some i := by
  have hsearch : binarySearch (Graph.compareSlot m.chunkOidLookup oid) i (i + 1) = i := by
    rw [binarySearch, if_pos (Nat.lt_succ_self i)]
    dsimp only
    rw [show i + (i + 1 - i) / 2 = i by omega, if_pos hsame]
  rw [bsearchHash_eq, hlo, hhi, hsearch, if_pos (Int.natCast_nonneg i), Int.toNat_natCast]

lemma bsearchHash_example : bsearchHash upperLayer.chunkOidFanout upperLayer.chunkOidLookup (exampleOid 1) = some 0 ∧
    bsearchHash upperLayer.chunkOidFanout upperLayer.chunkOidLookup (exampleOid 2) = some 1 := by
  have hfirst := fanoutRange_fanoutOf (fun b => min b 2) (exampleOid 1) (by decide)
  have hsecond := fanoutRange_fanoutOf (fun b => min b 2) (exampleOid 2) (by decide)
  exact ⟨bsearchHash_single (congrArg Prod.fst hfirst) (congrArg Prod.snd hfirst) (by decide),
    bsearchHash_single (congrArg Prod.fst hsecond) (congrArg Prod.snd hsecond) (by decide)⟩

lemma leadsTo_example (i : Nat) (b : UInt8) (hfound : bsearchHash upperLayer.chunkOidFanout upperLayer.chunkOidLookup
    (exampleOid b) = some i) (hi : i < 2) :
    LeadsTo [upperLayer, lowerLayer] (exampleOid b) upperLayer i (0, 12) (packAt 12) := by
  have hloaded := loaded_example upperLayer List.mem_cons_self
  refine ⟨⟨i + 2, [lowerLayer], ?_, List.suffix_refl _, ?_, ?_⟩, hfound, ?_, rfl⟩
  · rw [bsearchMidx, bsearchOneMidx_eq hloaded, hfound, ok_bind]
    dsimp only
    rw [objectsIn_example.1, u32_of_lt (by omega)]
    rfl
  · rw [objectsIn_example.1, Nat.add_comm]
  · rw [numObjects_example.1]
    exact hi
  · interval_cases i <;> rfl

end GitCore.Midx
