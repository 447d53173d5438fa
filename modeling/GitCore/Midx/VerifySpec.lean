import GitCore.Midx.Chain

/-!
# What verifying a chain of multi-pack indexes finds

`verify_midx_file` looks at the order of the newest layer only, and at an entry of another one only if the lookup of
its id leads there. Where no id is twice in the chain, every lookup that succeeds leads to the entry itself, and
lookups that all succeed show that every layer is in order.
-/

namespace GitCore.Midx

open GitCore.Graph (ObjectId bsearchHash compareSlot)

/-- What `load_multi_pack_index_one` checks of the tables of a layer. -/
structure Loaded (m : MultiPackIndex) : Prop where
  fanout_length : m.chunkOidFanout.length = 256
  fanout_sorted : m.chunkOidFanout.Pairwise (· ≤ ·)
  lookup_length : m.chunkOidLookup.length = m.numObjects
  offsets_length : m.chunkObjectOffsets.length = m.numObjects

def PacksLoad (m : MultiPackIndex) : Prop :=
  ∀ slot ∈ m.packs, ∃ p : PackedGit, slot = some p ∧ p.isPackValid = true ∧ p.opensIndex = true

/-- The chain has fewer than `2 ^ 32` objects and packs, and the pack ids of a layer are those of its packs. -/
structure Fits (chain : MidxChain) : Prop where
  objects : objectsIn chain < 2 ^ 32
  packs : packsIn chain < 2 ^ 32
  packIds : ∀ m ∈ chain, ∀ entry ∈ m.chunkObjectOffsets, entry.1 < m.numPacks

def oids (chain : MidxChain) : List ObjectId := chain.reverse.flatMap MultiPackIndex.chunkOidLookup

variable {chain base : MidxChain} {m : MultiPackIndex} {pos i : Nat} {oid : ObjectId}

lemma objectsIn_cons : objectsIn (m :: base) = m.numObjects + objectsIn base := by
  rw [objectsIn, List.map_cons, List.sum_cons, objectsIn]

lemma packsIn_cons : packsIn (m :: base) = m.numPacks + packsIn base := by
  rw [packsIn, List.map_cons, List.sum_cons, packsIn]

lemma oids_cons : oids (m :: base) = oids base ++ m.chunkOidLookup := by
  simp [oids]

lemma length_oids (h : ∀ m ∈ chain, Loaded m) : (oids chain).length = objectsIn chain := by
  induction chain with
  | nil => rfl
  | cons m base ih =>
    obtain ⟨hm, hbase⟩ := List.forall_mem_cons.mp h
    rw [oids_cons, List.length_append, ih hbase, hm.lookup_length, objectsIn_cons, Nat.add_comm]

lemma objectsIn_le_of_suffix {chain' : MidxChain} (h : chain' <:+ chain) : objectsIn chain' ≤ objectsIn chain := by
  obtain ⟨newer, rfl⟩ := h
  rw [objectsIn, objectsIn, List.map_append, List.sum_append]
  exact Nat.le_add_left _ _

lemma packsIn_le_of_suffix {chain' : MidxChain} (h : chain' <:+ chain) : packsIn chain' ≤ packsIn chain := by
  obtain ⟨newer, rfl⟩ := h
  rw [packsIn, packsIn, List.map_append, List.sum_append]
  exact Nat.le_add_left _ _

lemma ok_bind {α β : Type} (a : α) (f : α → Except Failure β) : (Except.ok a >>= f) = f a := rfl

lemma u32_of_lt {n : Nat} (h : n < 2 ^ 32) : u32 n = n := Nat.mod_eq_of_lt h

lemma fetch_of_getElem? {α : Type} {table : List α} {a : α} (h : table[i]? = some a) : fetch table i = .ok a := by
  rw [fetch, h]

/-- The position is the `i`-th of the layer `m` over `base`. -/
structure Place (chain : MidxChain) (pos : Nat) (m : MultiPackIndex) (base : MidxChain) (i : Nat) : Prop where
  suffix : (m :: base) <:+ chain
  pos_eq : pos = objectsIn base + i
  lt : i < m.numObjects

lemma Place.self (h : Place chain pos m base i) : Place (m :: base) pos m base i :=
  ⟨List.suffix_refl _, h.pos_eq, h.lt⟩

lemma Place.cons {newer : MultiPackIndex} (h : Place chain pos m base i) : Place (newer :: chain) pos m base i :=
  ⟨h.suffix.trans (List.suffix_cons newer chain), h.pos_eq, h.lt⟩

lemma Place.mem (h : Place chain pos m base i) : m ∈ chain := h.suffix.subset List.mem_cons_self

lemma Place.pos_lt (h : Place chain pos m base i) : pos < objectsIn chain := by
  have hle := objectsIn_le_of_suffix h.suffix
  rw [objectsIn_cons] at hle
  have hlt := h.lt
  have hpos := h.pos_eq
  omega

lemma exists_place (h : pos < objectsIn chain) : ∃ m base i, Place chain pos m base i := by
  induction chain with
  | nil => exact absurd h (Nat.not_lt_zero pos)
  | cons newer rest ih =>
    by_cases hrest : pos < objectsIn rest
    · obtain ⟨m, base, i, hplace⟩ := ih hrest
      exact ⟨m, base, i, hplace.cons⟩
    · rw [objectsIn_cons] at h
      exact ⟨newer, rest, pos - objectsIn rest, List.suffix_refl _, by omega, by omega⟩

lemma midxForObject_of_place (h : Place chain pos m base i) (hsmall : objectsIn chain < 2 ^ 32) :
    midxForObject chain pos = .ok (m, base, i) := by
  induction chain with
  | nil => exact absurd h.mem List.not_mem_nil
  | cons newer rest ih =>
    have hpos := h.pos_eq
    have hlt := h.lt
    rw [objectsIn_cons] at hsmall
    obtain heq | hsuffix := List.suffix_cons_iff.mp h.suffix
    · obtain ⟨rfl, rfl⟩ := List.cons.inj heq
      rw [midxForObject, if_neg (by omega), u32_of_lt hsmall, if_neg (by omega), hpos, Nat.add_sub_cancel_left]
    · have hrest : Place rest pos m base i := ⟨hsuffix, hpos, hlt⟩
      rw [midxForObject, if_pos hrest.pos_lt]
      exact ih hrest (by omega)

lemma getElem?_oids (hloaded : ∀ m ∈ chain, Loaded m) (h : Place chain pos m base i) :
    (oids chain)[pos]? = m.chunkOidLookup[i]? := by
  induction chain with
  | nil => exact absurd h.mem List.not_mem_nil
  | cons newer rest ih =>
    obtain ⟨hnewer, hrestLoaded⟩ := List.forall_mem_cons.mp hloaded
    obtain heq | hsuffix := List.suffix_cons_iff.mp h.suffix
    · obtain ⟨rfl, rfl⟩ := List.cons.inj heq
      rw [oids_cons, h.pos_eq, ← length_oids hrestLoaded, List.getElem?_append_right (Nat.le_add_right _ _),
        Nat.add_sub_cancel_left]
    · have hrest : Place rest pos m base i := ⟨hsuffix, h.pos_eq, h.lt⟩
      rw [oids_cons, List.getElem?_append_left (by rw [length_oids hrestLoaded]; exact hrest.pos_lt)]
      exact ih hrestLoaded hrest

lemma nthMidxedObjectOid_of_place (hsmall : objectsIn chain < 2 ^ 32)
    (h : Place chain pos m base i) (hoid : m.chunkOidLookup[i]? = some oid) :
    nthMidxedObjectOid chain pos = .ok (some oid) := by
  rw [nthMidxedObjectOid, u32_of_lt hsmall, if_neg (Nat.not_le.mpr h.pos_lt), midxForObject_of_place h hsmall]
  rw [ok_bind]
  dsimp only
  rw [fetch_of_getElem? hoid]
  rfl

lemma bsearchLoop_eq {table : List ObjectId} {hash : ObjectId} {lo hi : Nat} (hhi : hi ≤ table.length) :
    bsearchLoop table hash lo hi =
      .ok (if 0 ≤ binarySearch (compareSlot table hash) lo hi then
        some (binarySearch (compareSlot table hash) lo hi).toNat else none) := by
  induction hn : hi - lo using Nat.strong_induction_on generalizing lo hi with
  | _ n ih =>
    by_cases hlt : lo < hi
    · have hget := List.getElem?_eq_getElem (show lo + (hi - lo) / 2 < table.length by omega)
      obtain ⟨hless, hsame⟩ := Graph.comparesKeys_compareSlot table hash _ _ hget
      rw [id] at hless hsame
      rw [bsearchLoop, binarySearch, if_pos hlt, if_pos hlt]
      dsimp only
      rw [hget]
      dsimp only
      by_cases hfound : table[lo + (hi - lo) / 2] = hash
      · rw [if_pos hfound, if_pos (hsame.mpr hfound.symm), if_pos (Int.natCast_nonneg _), Int.toNat_natCast]
      · rw [if_neg hfound, if_neg fun h => hfound (hsame.mp h).symm]
        by_cases hlow : hash < table[lo + (hi - lo) / 2]
        · rw [if_pos hlow, if_pos (hless.mpr hlow)]
          exact ih _ (by omega) (by omega) rfl
        · rw [if_neg hlow, if_neg fun h => hlow (hless.mp h)]
          exact ih _ (by omega) hhi rfl
    · rw [bsearchLoop, binarySearch, if_neg hlt, if_neg hlt, if_neg (by omega)]

lemma Loaded.fanout_le (h : Loaded m) {b : Nat} (hb : b < 256) :
    m.chunkOidFanout[b]? = some (m.chunkOidFanout.getD b 0) ∧ m.chunkOidFanout.getD b 0 ≤ m.numObjects := by
  have hlt : b < m.chunkOidFanout.length := by rw [h.fanout_length]; exact hb
  have hlast : 255 < m.chunkOidFanout.length := by rw [h.fanout_length]; decide
  have hvalue : ∀ {b : Nat} (hlt : b < m.chunkOidFanout.length), m.chunkOidFanout.getD b 0 = m.chunkOidFanout[b] :=
    fun hlt => by rw [List.getD_eq_getElem?_getD, List.getElem?_eq_getElem hlt, Option.getD_some]
  refine ⟨by rw [hvalue hlt]; exact List.getElem?_eq_getElem hlt, ?_⟩
  rw [MultiPackIndex.numObjects, hvalue hlt, hvalue hlast]
  obtain hbefore | rfl := Nat.lt_or_eq_of_le (Nat.le_of_lt_succ hb)
  · exact List.pairwise_iff_getElem.mp h.fanout_sorted b 255 hlt hlast hbefore
  · exact le_refl _

lemma firstByte_lt (oid : ObjectId) : (oid.headD 0).toNat < 256 := UInt8.toNat_lt _

lemma bsearchOneMidx_eq (h : Loaded m) (oid : ObjectId) :
    bsearchOneMidx m oid = .ok (bsearchHash m.chunkOidFanout m.chunkOidLookup oid) := by
  obtain ⟨hhi, hle⟩ := h.fanout_le (firstByte_lt oid)
  rw [← h.lookup_length] at hle
  rw [bsearchOneMidx, bsearchHash]
  dsimp only
  rw [fetch_of_getElem? hhi, ok_bind]
  by_cases hzero : (oid.headD 0).toNat = 0
  · rw [if_pos hzero, if_pos hzero]
    exact bsearchLoop_eq hle
  · obtain ⟨hlo, -⟩ := h.fanout_le (show (oid.headD 0).toNat - 1 < 256 by have := firstByte_lt oid; omega)
    rw [if_neg hzero, if_neg hzero, fetch_of_getElem? hlo]
    exact bsearchLoop_eq hle

def fanoutRange (fanout : List Nat) (oid : ObjectId) : Nat × Nat :=
  (if (oid.headD 0).toNat = 0 then 0 else fanout.getD ((oid.headD 0).toNat - 1) 0, fanout.getD (oid.headD 0).toNat 0)

lemma bsearchHash_eq (fanout : List Nat) (table : List ObjectId) (oid : ObjectId) :
    bsearchHash fanout table oid =
      if 0 ≤ binarySearch (compareSlot table oid) (fanoutRange fanout oid).1 (fanoutRange fanout oid).2 then
        some (binarySearch (compareSlot table oid) (fanoutRange fanout oid).1 (fanoutRange fanout oid).2).toNat
      else none := rfl

lemma bsearchHash_eq_some {fanout : List Nat} {table : List ObjectId}
    (h : bsearchHash fanout table oid = some i) :
    binarySearch (compareSlot table oid) (fanoutRange fanout oid).1 (fanoutRange fanout oid).2 = i ∧
      (fanoutRange fanout oid).1 ≤ i ∧ i < (fanoutRange fanout oid).2 ∧ compareSlot table oid i = 0 := by
  rw [bsearchHash_eq] at h
  obtain hneg | ⟨found, hfound, hlo, hhi, hzero⟩ :=
    binarySearch_range (compareSlot table oid) (fanoutRange fanout oid).1 (fanoutRange fanout oid).2
  · rw [if_neg (Int.not_le.mpr hneg)] at h
    cases h
  · rw [hfound, if_pos (Int.natCast_nonneg _), Int.toNat_natCast, Option.some_inj] at h
    subst h
    exact ⟨hfound, hlo, hhi, hzero⟩

lemma Loaded.getElem?_of_bsearchHash (h : Loaded m)
    (hfound : bsearchHash m.chunkOidFanout m.chunkOidLookup oid = some i) :
    i < m.numObjects ∧ m.chunkOidLookup[i]? = some oid := by
  obtain ⟨-, -, hlt, hzero⟩ := bsearchHash_eq_some hfound
  obtain ⟨-, hle⟩ := h.fanout_le (firstByte_lt oid)
  rw [fanoutRange] at hlt
  have hbound : i < m.chunkOidLookup.length := by rw [h.lookup_length]; exact hlt.trans_le hle
  have hget := List.getElem?_eq_getElem hbound
  have hsame := (Graph.comparesKeys_compareSlot m.chunkOidLookup oid i _ hget).2.mp hzero
  rw [id] at hsame
  exact ⟨hlt.trans_le hle, by rw [hget, hsame]⟩

lemma bsearchMidx_spec (hloaded : ∀ m ∈ chain, Loaded m) (hsmall : objectsIn chain < 2 ^ 32) (oid : ObjectId) :
    bsearchMidx chain oid = .ok none ∨
      ∃ pos m base i, bsearchMidx chain oid = .ok (some pos) ∧ Place chain pos m base i ∧
        bsearchHash m.chunkOidFanout m.chunkOidLookup oid = some i := by
  induction chain with
  | nil => exact .inl rfl
  | cons newer rest ih =>
    obtain ⟨hnewer, hrest⟩ := List.forall_mem_cons.mp hloaded
    rw [objectsIn_cons] at hsmall
    cases hfound : bsearchHash newer.chunkOidFanout newer.chunkOidLookup oid with
    | none =>
      have hbase : bsearchMidx (newer :: rest) oid = bsearchMidx rest oid := by
        rw [bsearchMidx, bsearchOneMidx_eq hnewer, hfound]
        rfl
      rw [hbase]
      obtain hnone | ⟨pos, m, base, i, hpos, hplace, hsome⟩ := ih hrest (by omega)
      · exact .inl hnone
      · exact .inr ⟨pos, m, base, i, hpos, hplace.cons, hsome⟩
    | some i =>
      obtain ⟨hlt, -⟩ := hnewer.getElem?_of_bsearchHash hfound
      refine .inr ⟨i + objectsIn rest, newer, rest, i, ?_, ⟨List.suffix_refl _, Nat.add_comm _ _, hlt⟩, hfound⟩
      have hlayer : bsearchMidx (newer :: rest) oid = .ok (some (u32 (i + objectsIn rest))) := by
        rw [bsearchMidx, bsearchOneMidx_eq hnewer, hfound]
        rfl
      rw [hlayer, u32_of_lt (by omega)]

lemma midxForPack_spec {packIntId : Nat} (hsmall : packsIn chain < 2 ^ 32) (h : packIntId < packsIn chain) :
    ∃ m ∈ chain, ∃ k < m.numPacks, midxForPack chain packIntId = .ok (m, k) := by
  induction chain with
  | nil => exact absurd h (Nat.not_lt_zero packIntId)
  | cons newer rest ih =>
    rw [packsIn_cons] at hsmall h
    rw [midxForPack]
    by_cases hrest : packIntId < packsIn rest
    · obtain ⟨m, hm, k, hk, hfound⟩ := ih (by omega) hrest
      exact ⟨m, List.mem_cons_of_mem newer hm, k, hk, by rw [if_pos hrest]; exact hfound⟩
    · exact ⟨newer, List.mem_cons_self, packIntId - packsIn rest, by omega,
        by rw [if_neg hrest, u32_of_lt hsmall, if_neg (by omega)]⟩

lemma midxForPack_own {k : Nat} (hsmall : packsIn (m :: base) < 2 ^ 32) (hk : k < m.numPacks) :
    midxForPack (m :: base) (packsIn base + k) = .ok (m, k) := by
  rw [packsIn_cons] at hsmall
  rw [midxForPack, if_neg (by omega), u32_of_lt hsmall, if_neg (by omega), Nat.add_sub_cancel_left]

lemma exists_pack (hpacks : PacksLoad m) {k : Nat} (hk : k < m.numPacks) :
    ∃ p : PackedGit, m.packs[k]? = some (some p) ∧ p.isPackValid = true ∧ p.opensIndex = true := by
  have hget : m.packs[k]? = some m.packs[k] := List.getElem?_eq_getElem hk
  obtain ⟨p, hp, hvalid, hopens⟩ := hpacks m.packs[k] (List.getElem_mem hk)
  exact ⟨p, by rw [hget, hp], hvalid, hopens⟩

lemma prepareMidxPack_eq {packIntId : Nat} (hpacks : ∀ m ∈ chain, PacksLoad m) (hsmall : packsIn chain < 2 ^ 32)
    (h : packIntId < packsIn chain) :
    prepareMidxPack chain packIntId = .ok false ∧ ∃ p, nthMidxedPack chain packIntId = .ok p := by
  obtain ⟨m, hm, k, hk, hfound⟩ := midxForPack_spec hsmall h
  obtain ⟨p, hp, -, -⟩ := exists_pack (hpacks m hm) hk
  rw [prepareMidxPack, nthMidxedPack, hfound, ok_bind, ok_bind]
  dsimp only
  rw [fetch_of_getElem? hp]
  exact ⟨rfl, _, rfl⟩

variable {entry : Nat × Nat} {p : PackedGit}

lemma Place.packs_le (hfits : Fits chain) (h : Place chain pos m base i) : packsIn (m :: base) < 2 ^ 32 :=
  (packsIn_le_of_suffix h.suffix).trans_lt hfits.packs

lemma Place.objects_le (hfits : Fits chain) (h : Place chain pos m base i) : objectsIn (m :: base) < 2 ^ 32 :=
  (objectsIn_le_of_suffix h.suffix).trans_lt hfits.objects

lemma nthMidxedPackIntId_of_place (hfits : Fits chain) (h : Place chain pos m base i)
    (hentry : m.chunkObjectOffsets[i]? = some entry) :
    nthMidxedPackIntId chain pos = .ok (packsIn base + entry.1) ∧ packsIn base + entry.1 < packsIn chain := by
  have hid := hfits.packIds m h.mem entry (List.mem_of_getElem? hentry)
  have hle := packsIn_le_of_suffix h.suffix
  have hsmall := hfits.packs
  rw [packsIn_cons] at hle
  rw [nthMidxedPackIntId, midxForObject_of_place h hfits.objects, ok_bind]
  dsimp only
  rw [fetch_of_getElem? hentry, ok_bind, u32_of_lt (by omega)]
  exact ⟨rfl, by omega⟩

lemma nthMidxedOffset_of_place (hsmall : objectsIn chain < 2 ^ 32) (h : Place chain pos m base i)
    (hentry : m.chunkObjectOffsets[i]? = some entry) : nthMidxedOffset chain pos = m.offset entry.2 := by
  rw [nthMidxedOffset, midxForObject_of_place h hsmall, ok_bind]
  dsimp only
  rw [fetch_of_getElem? hentry, ok_bind]

structure LeadsTo (chain : MidxChain) (oid : ObjectId) (m : MultiPackIndex) (i : Nat) (entry : Nat × Nat)
    (p : PackedGit) : Prop where
  place : ∃ pos base, bsearchMidx chain oid = .ok (some pos) ∧ Place chain pos m base i
  found : bsearchHash m.chunkOidFanout m.chunkOidLookup oid = some i
  recorded : m.chunkObjectOffsets[i]? = some entry
  pack : m.packs[entry.1]? = some (some p)

lemma exists_leadsTo (hloaded : ∀ m ∈ chain, Loaded m) (hpacks : ∀ m ∈ chain, PacksLoad m) (hfits : Fits chain)
    (hsome : bsearchMidx chain oid ≠ .ok none) :
    ∃ m i entry p, LeadsTo chain oid m i entry p ∧ p.isPackValid = true ∧ p.opensIndex = true := by
  obtain hnone | ⟨pos, m, base, i, hpos, hplace, hfound⟩ := bsearchMidx_spec hloaded hfits.objects oid
  · exact absurd hnone hsome
  · have hlt : i < m.chunkObjectOffsets.length := by
      rw [(hloaded m hplace.mem).offsets_length]
      exact hplace.lt
    have hentry := List.getElem?_eq_getElem hlt
    obtain ⟨p, hp, hvalid, hopens⟩ := exists_pack (hpacks m hplace.mem)
      (hfits.packIds m hplace.mem _ (List.getElem_mem hlt))
    exact ⟨m, i, _, p, ⟨⟨pos, base, hpos, hplace⟩, hfound, hentry, hp⟩, hvalid, hopens⟩

lemma fillMidxEntry_of_leadsTo (hfits : Fits chain) (h : LeadsTo chain oid m i entry p)
    (hvalid : p.isPackValid = true) :
    fillMidxEntry chain oid =
      if p.badObjects oid = true then .ok none else (m.offset entry.2).map fun offset => some (p, offset) := by
  obtain ⟨pos, base, hpos, hplace⟩ := h.place
  have hsuffix : Fits (m :: base) := ⟨hplace.objects_le hfits, hplace.packs_le hfits,
    fun m' hm' => hfits.packIds m' (hplace.suffix.subset hm')⟩
  have hid := hfits.packIds m hplace.mem entry (List.mem_of_getElem? h.recorded)
  have hprepare : prepareMidxPack (m :: base) (packsIn base + entry.1) = .ok false := by
    rw [prepareMidxPack, midxForPack_own hsuffix.packs hid, ok_bind]
    dsimp only
    rw [fetch_of_getElem? h.pack]
    rfl
  have hindex : u32 (packsIn base + entry.1 + 2 ^ 32 - packsIn base) = entry.1 := by
    have hsmall := hsuffix.packs
    rw [packsIn_cons] at hsmall
    rw [show packsIn base + entry.1 + 2 ^ 32 - packsIn base = entry.1 + 2 ^ 32 by omega, u32, Nat.add_mod_right,
      Nat.mod_eq_of_lt (by omega)]
  rw [fillMidxEntry, hpos, ok_bind]
  dsimp only
  rw [midxForObject_of_place hplace hfits.objects, ok_bind]
  dsimp only
  rw [(nthMidxedPackIntId_of_place hsuffix hplace.self h.recorded).1, ok_bind, hprepare, ok_bind, if_neg (by simp), hindex,
    fetch_of_getElem? h.pack, nthMidxedOffset_of_place hsuffix.objects hplace.self h.recorded]
  rw [ok_bind]
  dsimp only
  by_cases hbad : p.badObjects oid = true
  · rw [if_pos (.inr hbad), if_pos hbad]
    rfl
  · rw [if_neg (by simp [hvalid, hbad]), if_neg hbad]
    cases m.offset entry.2 <;> rfl

def DiesOr {α : Type} (x : Except Failure α) (Post : α → Prop) : Prop := x = .error .died ∨ ∃ a, x = .ok a ∧ Post a

section

variable {α β : Type} {x : Except Failure α} {Post : α → Prop}

lemma DiesOr.ok {a : α} (h : Post a) : DiesOr (.ok a) Post := .inr ⟨a, rfl, h⟩

lemma DiesOr.bind {f : α → Except Failure β} {Post' : β → Prop} (h : DiesOr x Post)
    (hf : ∀ a, Post a → DiesOr (f a) Post') : DiesOr (x >>= f) Post' := by
  obtain rfl | ⟨a, rfl, ha⟩ := h
  · exact .inl rfl
  · exact hf a ha

lemma DiesOr.of_eq {a : α} (h : x = .ok a) (hpost : Post a) : DiesOr x Post := .inr ⟨a, h, hpost⟩

end

lemma offset_diesOr (m : MultiPackIndex) (offset32 : Nat) : DiesOr (m.offset offset32) fun _ => True := by
  rw [MultiPackIndex.offset]
  split
  · exact .ok trivial
  · split
    · split
      · exact .ok trivial
      · exact .inl rfl
    · exact .ok trivial

def FoundRight (chain : MidxChain) (oid : ObjectId) : Prop :=
  ∃ m i entry p, LeadsTo chain oid m i entry p ∧ m.offset entry.2 = .ok (p.findPackEntryOne oid)

lemma checkEntry_spec (hloaded : ∀ m ∈ chain, Loaded m) (hpacks : ∀ m ∈ chain, PacksLoad m) (hfits : Fits chain)
    (hplace : Place chain pos m base i) (hoid : m.chunkOidLookup[i]? = some oid) :
    DiesOr (checkEntry chain pos) fun result => result.2 = false ∧ (result.1 = [] → FoundRight chain oid) := by
  rw [checkEntry, nthMidxedObjectOid_of_place hfits.objects hplace hoid, ok_bind]
  dsimp only
  by_cases hnone : bsearchMidx chain oid = .ok none
  · have hfill : fillMidxEntry chain oid = .ok none := by
      rw [fillMidxEntry, hnone]
      rfl
    rw [hfill]
    exact .ok ⟨rfl, fun h => absurd h (List.cons_ne_nil _ _)⟩
  · obtain ⟨m', i', entry, p, hleads, hvalid, hopens⟩ := exists_leadsTo hloaded hpacks hfits hnone
    rw [fillMidxEntry_of_leadsTo hfits hleads hvalid]
    by_cases hbad : p.badObjects oid = true
    · rw [if_pos hbad]
      exact .ok ⟨rfl, fun h => absurd h (List.cons_ne_nil _ _)⟩
    · rw [if_neg hbad]
      obtain hdied | ⟨offset, hoffset, -⟩ := offset_diesOr m' entry.2
      · rw [hdied]
        exact .inl rfl
      · rw [hoffset, Except.map, ok_bind]
        dsimp only
        rw [if_neg (by simp [hopens])]
        by_cases hright : offset = p.findPackEntryOne oid
        · rw [if_neg (not_not.mpr hright)]
          exact .ok ⟨rfl, fun _ => ⟨m', i', entry, p, hleads, by rw [hoffset, hright]⟩⟩
        · rw [if_pos hright]
          exact .ok ⟨rfl, fun h => absurd h (List.cons_ne_nil _ _)⟩

lemma checkEntry_of_right (hfits : Fits chain) (hplace : Place chain pos m base i)
    (hoid : m.chunkOidLookup[i]? = some oid) {m' : MultiPackIndex} {i' : Nat} (hleads : LeadsTo chain oid m' i' entry p)
    (hvalid : p.isPackValid = true) (hopens : p.opensIndex = true) (hbad : p.badObjects oid = false)
    (hoffset : m'.offset entry.2 = .ok (p.findPackEntryOne oid)) : checkEntry chain pos = .ok ([], false) := by
  rw [checkEntry, nthMidxedObjectOid_of_place hfits.objects hplace hoid, ok_bind]
  dsimp only
  rw [fillMidxEntry_of_leadsTo hfits hleads hvalid, if_neg (by simp [hbad]), hoffset, Except.map, ok_bind]
  dsimp only
  rw [if_neg (by simp [hopens]), if_neg (not_not.mpr rfl)]
  rfl

lemma gather_eq {round : Nat → Except Failure (List MidxReport)} {reports : Nat → List MidxReport} {is : List Nat}
    (h : ∀ i ∈ is, round i = .ok (reports i)) : gather round is = .ok (is.flatMap reports) := by
  induction is with
  | nil => rfl
  | cons i is ih =>
    obtain ⟨hi, his⟩ := List.forall_mem_cons.mp h
    rw [gather, hi, ih his]
    rfl

lemma pairsOf_spec (hloaded : ∀ m ∈ chain, Loaded m) (hfits : Fits chain) {is : List Nat}
    (his : ∀ i ∈ is, i < objectsIn chain) :
    ∃ pairs, pairsOf chain is = .ok pairs ∧ pairs.map PairPosVsId.pos = is ∧
      ∀ pair ∈ pairs, pair.packIntId < packsIn chain := by
  induction is with
  | nil => exact ⟨[], rfl, rfl, fun pair hpair => absurd hpair List.not_mem_nil⟩
  | cons pos is ih =>
    obtain ⟨hpos, hrest⟩ := List.forall_mem_cons.mp his
    obtain ⟨pairs, hpairs, hmap, hids⟩ := ih hrest
    obtain ⟨m, base, i, hplace⟩ := exists_place hpos
    have hlt : i < m.chunkObjectOffsets.length := by
      rw [(hloaded m hplace.mem).offsets_length]
      exact hplace.lt
    obtain ⟨hid, hbound⟩ := nthMidxedPackIntId_of_place hfits hplace (List.getElem?_eq_getElem hlt)
    refine ⟨_, by rw [pairsOf, hid, ok_bind, hpairs]; rfl, by rw [List.map_cons, hmap], fun pair hpair => ?_⟩
    obtain rfl | hpair := List.mem_cons.mp hpair
    · exact hbound
    · exact hids pair hpair

lemma closePack_eq (hpacks : ∀ m ∈ chain, PacksLoad m) (hfits : Fits chain) {last : Option PairPosVsId}
    {pair : PairPosVsId} (hlast : ∀ l ∈ last, l.packIntId < packsIn chain) : closePack chain last pair = .ok () := by
  cases last with
  | none => rfl
  | some last =>
    obtain ⟨-, p, hp⟩ := prepareMidxPack_eq hpacks hfits.packs (hlast last rfl)
    rw [closePack]
    split_ifs
    · rw [hp]
      rfl
    · rfl

lemma checkEntries_spec (hloaded : ∀ m ∈ chain, Loaded m) (hpacks : ∀ m ∈ chain, PacksLoad m)
    (hfits : Fits chain) {pairs : List PairPosVsId} {last : Option PairPosVsId}
    (hlast : ∀ l ∈ last, l.packIntId < packsIn chain)
    (hpairs : ∀ pair ∈ pairs, pair.packIntId < packsIn chain ∧ pair.pos < objectsIn chain) :
    DiesOr (checkEntries chain last pairs) fun reports => reports = [] →
      ∀ pair ∈ pairs, ∀ oid, (oids chain)[pair.pos]? = some oid → FoundRight chain oid := by
  induction pairs generalizing last with
  | nil => exact .ok fun _ pair hpair => absurd hpair List.not_mem_nil
  | cons pair pairs ih =>
    obtain ⟨⟨hid, hpos⟩, hrest⟩ := List.forall_mem_cons.mp hpairs
    obtain ⟨m, base, i, hplace⟩ := exists_place hpos
    have hlt : i < m.chunkOidLookup.length := by
      rw [(hloaded m hplace.mem).lookup_length]
      exact hplace.lt
    have hoid := List.getElem?_eq_getElem hlt
    rw [checkEntries, closePack_eq hpacks hfits hlast, ok_bind]
    refine (checkEntry_spec hloaded hpacks hfits hplace hoid).bind fun result hresult => ?_
    obtain ⟨reports, stop⟩ := result
    obtain ⟨rfl, hright⟩ := hresult
    dsimp only
    rw [if_neg Bool.false_ne_true]
    refine (ih (fun l hl => by rw [← Option.some.inj hl]; exact hid) hrest).bind fun more hmore => ?_
    refine .ok fun hnil pair' hpair' oid' hoid' => ?_
    obtain ⟨hnil, hnilMore⟩ := List.append_eq_nil_iff.mp hnil
    obtain rfl | hpair' := List.mem_cons.mp hpair'
    · rw [getElem?_oids hloaded hplace, hoid] at hoid'
      rw [← Option.some.inj hoid']
      exact hright hnil
    · exact hmore hnilMore pair' hpair' oid' hoid'

lemma checkEntries_of_right (hpacks : ∀ m ∈ chain, PacksLoad m) (hfits : Fits chain) {pairs : List PairPosVsId}
    {last : Option PairPosVsId} (hlast : ∀ l ∈ last, l.packIntId < packsIn chain)
    (hpairs : ∀ pair ∈ pairs, pair.packIntId < packsIn chain ∧ checkEntry chain pair.pos = .ok ([], false)) :
    checkEntries chain last pairs = .ok [] := by
  induction pairs generalizing last with
  | nil => rfl
  | cons pair pairs ih =>
    obtain ⟨⟨hid, hcheck⟩, hrest⟩ := List.forall_mem_cons.mp hpairs
    rw [checkEntries, closePack_eq hpacks hfits hlast, ok_bind, hcheck, ok_bind]
    dsimp only
    rw [if_neg Bool.false_ne_true, ih (fun l hl => by rw [← Option.some.inj hl]; exact hid) hrest]
    rfl

def InOrder (m : MultiPackIndex) : Prop :=
  ∀ (i : Nat) (a b : ObjectId), m.chunkOidLookup[i]? = some a → m.chunkOidLookup[i + 1]? = some b → a < b

def orderReports (m : MultiPackIndex) (i : Nat) : List MidxReport :=
  match m.chunkOidLookup[i]?, m.chunkOidLookup[i + 1]? with
  | some a, some b => if a < b then [] else [.oidOutOfOrder i a b]
  | _, _ => []

lemma checkOrder_eq (hloaded : Loaded m) (hfits : Fits (m :: base)) (hi : i < m.numObjects - 1) :
    checkOrder (m :: base) (objectsIn base) i = .ok (orderReports m i) := by
  have hlength := hloaded.lookup_length
  have hsmall := hfits.objects
  rw [objectsIn_cons] at hsmall
  have ha := List.getElem?_eq_getElem (show i < m.chunkOidLookup.length by omega)
  have hb := List.getElem?_eq_getElem (show i + 1 < m.chunkOidLookup.length by omega)
  have hplace : Place (m :: base) (objectsIn base + i) m base i := ⟨List.suffix_refl _, rfl, by omega⟩
  have hnext : Place (m :: base) (objectsIn base + i + 1) m base (i + 1) := ⟨List.suffix_refl _, rfl, by omega⟩
  rw [checkOrder, u32_of_lt (by omega), u32_of_lt (by omega),
    nthMidxedObjectOid_of_place hfits.objects hplace ha, nthMidxedObjectOid_of_place hfits.objects hnext hb, ok_bind,
    ok_bind, orderReports, ha, hb]
  rfl

lemma orderReports_eq_nil_iff (hloaded : Loaded m) :
    ((m :: base).flatMap fun _ => List.range (m.numObjects - 1)).flatMap (orderReports m) = [] ↔ InOrder m := by
  simp only [List.flatMap_eq_nil_iff, List.mem_flatMap, List.mem_range]
  constructor
  · intro h i a b ha hb
    have hlt := (List.getElem?_eq_some_iff.mp hb).1
    have hnil := h i ⟨m, List.mem_cons_self, by rw [← hloaded.lookup_length]; omega⟩
    rw [orderReports, ha, hb] at hnil
    by_contra hless
    dsimp only at hnil
    rw [if_neg hless] at hnil
    exact List.cons_ne_nil _ _ hnil
  · rintro h i -
    rw [orderReports]
    split
    · rename_i a b ha hb
      rw [if_pos (h i a b ha hb)]
    · rfl

lemma fanoutRange_le (hloaded : Loaded m) {x y : ObjectId} (h : Graph.firstByte x < Graph.firstByte y) :
    (fanoutRange m.chunkOidFanout x).2 ≤ (fanoutRange m.chunkOidFanout y).1 := by
  have hy : Graph.firstByte y < 256 := firstByte_lt y
  have hx : Graph.firstByte x < m.chunkOidFanout.length := by rw [hloaded.fanout_length]; exact h.trans hy
  have hpred : Graph.firstByte y - 1 < m.chunkOidFanout.length := by
    rw [hloaded.fanout_length]
    exact (Nat.sub_le _ _).trans_lt hy
  have hvalue : ∀ {b : Nat} (hlt : b < m.chunkOidFanout.length), m.chunkOidFanout.getD b 0 = m.chunkOidFanout[b] :=
    fun hlt => by rw [List.getD_eq_getElem?_getD, List.getElem?_eq_getElem hlt, Option.getD_some]
  rw [fanoutRange, fanoutRange]
  dsimp only
  rw [if_neg (Nat.ne_of_gt (Nat.zero_lt_of_lt h)), hvalue hx, hvalue hpred]
  obtain hlt | heq := Nat.lt_or_eq_of_le (Nat.le_pred_of_lt h)
  · exact List.pairwise_iff_getElem.mp hloaded.fanout_sorted _ _ hx hpred hlt
  · exact (getElem_congr_idx heq).le

lemma inOrder_of_self (hloaded : Loaded m)
    (hself : ∀ (i : Nat) (oid : ObjectId), m.chunkOidLookup[i]? = some oid →
      bsearchHash m.chunkOidFanout m.chunkOidLookup oid = some i) : InOrder m := by
  have hrange : ∀ (i : Nat) (oid : ObjectId), m.chunkOidLookup[i]? = some oid →
      (fanoutRange m.chunkOidFanout oid).1 ≤ i ∧ i < (fanoutRange m.chunkOidFanout oid).2 := fun i oid hoid => by
    obtain ⟨-, hlo, hhi, -⟩ := bsearchHash_eq_some (hself i oid hoid)
    exact ⟨hlo, hhi⟩
  intro i a b ha hb
  obtain ⟨hloA, hhiA⟩ := hrange i a ha
  obtain ⟨hloB, hhiB⟩ := hrange (i + 1) b hb
  obtain hlt | heq | hgt := lt_trichotomy (Graph.firstByte a) (Graph.firstByte b)
  · exact not_le.mp fun hle => Nat.not_le.mpr hlt (Graph.firstByte_le_of_le hle)
  · have hsame : ∀ x : ObjectId, Graph.firstByte x = Graph.firstByte a →
        fanoutRange m.chunkOidFanout x = fanoutRange m.chunkOidFanout a := by
      intro x hx
      change (x.headD 0).toNat = (a.headD 0).toNat at hx
      rw [fanoutRange, fanoutRange, hx]
    rw [hsame b heq.symm] at hhiB
    have hbound : (fanoutRange m.chunkOidFanout a).2 ≤ m.chunkOidLookup.length := by
      rw [hloaded.lookup_length]
      exact (hloaded.fanout_le (firstByte_lt a)).2
    refine @lt_of_binarySearch_self _ _ _ id _ _ (fun k => Graph.comparesKeys_compareSlot m.chunkOidLookup k) _ _ hbound
      (fun k x hx hlo hhi => ?_) _ _ _ _ ha hb hloA (Nat.lt_succ_self i) hhiB
    -- The slots between the bounds have the same first byte.
    have hbyte : Graph.firstByte x = Graph.firstByte a := by
      obtain ⟨hloX, hhiX⟩ := hrange k x hx
      obtain hless | hequal | hmore := lt_trichotomy (Graph.firstByte x) (Graph.firstByte a)
      · have hle := fanoutRange_le hloaded hless
        omega
      · exact hequal
      · have hle := fanoutRange_le hloaded hmore
        omega
    have hfound := (bsearchHash_eq_some (hself k x hx)).1
    rwa [hsame x hbyte] at hfound
  · have hle := fanoutRange_le hloaded hgt
    omega

variable {qsort : List PairPosVsId → List PairPosVsId} {checksumValid : Bool}

lemma verifyReports_eq (hqsort : ∀ pairs, (qsort pairs).Perm pairs) (hloaded : ∀ m' ∈ m :: base, Loaded m')
    (hpacks : ∀ m' ∈ m :: base, PacksLoad m') (hfits : Fits (m :: base)) (hobjects : m.numObjects ≠ 0) :
    ∃ pairs : List PairPosVsId,
      (∀ pos, pos < objectsIn (m :: base) ↔ ∃ pair ∈ pairs, pair.pos = pos) ∧
      (∀ pair ∈ pairs, pair.packIntId < packsIn (m :: base)) ∧
      verifyReports qsort m base checksumValid = (checkEntries (m :: base) none pairs).map fun entries =>
        (if checksumValid then [] else [MidxReport.incorrectChecksum]) ++
          ((m :: base).flatMap fun _ => List.range (m.numObjects - 1)).flatMap (orderReports m) ++ entries := by
  have hm := hloaded m List.mem_cons_self
  have hgatherPacks : gather (checkPack (m :: base)) (List.range (u32 (packsIn (m :: base)))) = .ok [] := by
    rw [u32_of_lt hfits.packs, @gather_eq _ (fun _ => []) _ fun i hi => ?_]
    · simp
    · rw [checkPack, (prepareMidxPack_eq hpacks hfits.packs (List.mem_range.mp hi)).1]
      rfl
  have hgatherOrder : gather (checkOrder (m :: base) (objectsIn base))
      ((m :: base).flatMap fun _ => List.range (m.numObjects - 1)) =
        .ok (((m :: base).flatMap fun _ => List.range (m.numObjects - 1)).flatMap (orderReports m)) := by
    refine gather_eq fun i hi => checkOrder_eq hm hfits ?_
    obtain ⟨-, -, hi⟩ := List.mem_flatMap.mp hi
    exact List.mem_range.mp hi
  obtain ⟨pairs, hpairs, hmap, hids⟩ := pairsOf_spec hloaded hfits
    fun i (hi : i ∈ List.range (objectsIn (m :: base))) => List.mem_range.mp hi
  have hlength : ¬pairs.length < m.numObjects := by
    have hcount := congrArg List.length hmap
    rw [List.length_map, List.length_range, objectsIn_cons] at hcount
    omega
  have hperm : (qsort (pairs.take m.numObjects) ++ pairs.drop m.numObjects).Perm pairs := by
    have hfirst := (hqsort (pairs.take m.numObjects)).append_right (pairs.drop m.numObjects)
    rwa [List.take_append_drop] at hfirst
  refine ⟨qsort (pairs.take m.numObjects) ++ pairs.drop m.numObjects, fun pos => ?_,
    fun pair hpair => hids pair (hperm.subset hpair), ?_⟩
  · have hmem : pos ∈ pairs.map PairPosVsId.pos ↔ pos < objectsIn (m :: base) := by rw [hmap, List.mem_range]
    rw [← hmem, List.mem_map]
    exact ⟨fun ⟨pair, hpair, heq⟩ => ⟨pair, hperm.symm.subset hpair, heq⟩,
      fun ⟨pair, hpair, heq⟩ => ⟨pair, hperm.subset hpair, heq⟩⟩
  · rw [verifyReports, hgatherPacks, ok_bind, if_neg hobjects, hgatherOrder, ok_bind, u32_of_lt hfits.objects, hpairs, ok_bind, if_neg hlength]
    cases checkEntries (m :: base) none (qsort (pairs.take m.numObjects) ++ pairs.drop m.numObjects) with
    | error failure => rfl
    | ok entries =>
      rw [ok_bind, List.append_nil]
      rfl

end GitCore.Midx
