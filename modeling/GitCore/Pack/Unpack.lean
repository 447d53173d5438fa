import GitCore.Delta.Patch
import GitCore.Lib.Loop
import GitCore.Pack.Header
import Mathlib.Data.Fintype.Card

/-!
# Unpacking an object

`unpack_entry` of `packfile.c` with the delta base cache: down to a base that is not a delta or is
cached, then up again with the deltas of the stack.
-/

namespace GitCore.Pack

abbrev objBlob : Nat := 3

/-- The types of objects that are stored whole: `OBJ_COMMIT`, `OBJ_TREE`, `OBJ_BLOB`, `OBJ_TAG`. -/
abbrev IsWhole (type : Nat) : Prop := 1 ≤ type ∧ type ≤ 4

/-- The types `OBJ_OFS_DELTA` and `OBJ_REF_DELTA`. -/
abbrev IsDelta (type : Nat) : Prop := type = objOfsDelta ∨ type = objRefDelta

/-- What is read of a pack: its bytes, zlib, the index, the outcome of the CRC check where it is on, and
the copies of its objects in other places. -/
structure PackFile where
  bytes : List UInt8
  inflate : List UInt8 → Option (List UInt8)
  rawsz : Nat
  findPackEntryOne : List UInt8 → Option Nat
  crcOk : Nat → Bool
  readElsewhere : Nat → Option (Nat × List UInt8)
  elsewhere_whole : ∀ offset type data, readElsewhere offset = some (type, data) → IsWhole type

def unpackObjectHeader (p : PackFile) (curpos : Nat) : Option Nat × Nat × Nat :=
  match unpackObjectHeaderBuffer (p.bytes.drop curpos) with
  | some r => (some r.1, r.2.1, curpos + r.2.2)
  | none => (none, 0, curpos)

def getDeltaBase (p : PackFile) (curpos type deltaObjOffset : Nat) : Option (Nat × Nat) :=
  if type = objOfsDelta then
    (readOfsDelta (p.bytes.drop curpos)).bind fun r =>
      if 0 < r.1 ∧ r.1 < deltaObjOffset then some (deltaObjOffset - r.1, p.bytes.length - r.2.length) else none
  else (p.findPackEntryOne ((p.bytes.drop curpos).take p.rawsz)).map fun base => (base, curpos + p.rawsz)

def unpackCompressedEntry (p : PackFile) (curpos size : Nat) : Option (List UInt8) :=
  (p.inflate (p.bytes.drop curpos)).filter (·.length = size)

structure DeltaBaseCacheEntry where
  pack : Nat
  baseOffset : Nat
  data : List UInt8
  size : Nat
  type : Nat

/-- The entries from the least recently used one on, and `delta_base_cached`. -/
structure DeltaBaseCache where
  lru : List DeltaBaseCacheEntry
  cached : Nat

def hasKey (pack offset : Nat) (e : DeltaBaseCacheEntry) : Bool := e.pack = pack && e.baseOffset = offset

def getDeltaBaseCacheEntry (c : DeltaBaseCache) (pack offset : Nat) : Option DeltaBaseCacheEntry :=
  c.lru.find? (hasKey pack offset)

def detachDeltaBaseCacheEntry (c : DeltaBaseCache) (e : DeltaBaseCacheEntry) : DeltaBaseCache :=
  ⟨c.lru.eraseP (hasKey e.pack e.baseOffset), c.cached - e.size⟩

def releaseOver (limit : Nat) : List DeltaBaseCacheEntry → Nat → DeltaBaseCache
  | [], cached => ⟨[], cached⟩
  | f :: lru, cached => if cached ≤ limit then ⟨f :: lru, cached⟩ else releaseOver limit lru (cached - f.size)

def addDeltaBaseCache (limit : Nat) (c : DeltaBaseCache) (e : DeltaBaseCacheEntry) : DeltaBaseCache :=
  if (getDeltaBaseCacheEntry c e.pack e.baseOffset).isSome then c
  else
    let kept := releaseOver limit c.lru (c.cached + e.size)
    ⟨kept.lru ++ [e], kept.cached⟩

structure UnpackEntryStackEnt where
  objOffset : Nat
  curpos : Nat
  size : Nat

/-- The first phase at the start of a round, where `curpos` is the offset of the object. -/
structure Drill where
  objOffset : Nat
  stack : List UnpackEntryStackEnt
  cache : DeltaBaseCache

structure BaseFound where
  objOffset : Nat
  curpos : Nat
  type : Option Nat
  size : Nat
  data : Option (List UInt8)
  baseFromCache : Bool
  stack : List UnpackEntryStackEnt
  cache : DeltaBaseCache

inductive DrillEnd
  | base (b : BaseFound)
  | badCrc (cache : DeltaBaseCache)

def drillStep (p : PackFile) (pack : Nat) (d : Drill) : Drill ⊕ DrillEnd :=
  match getDeltaBaseCacheEntry d.cache pack d.objOffset with
  | some ent =>
    .inr (.base ⟨d.objOffset, d.objOffset, some ent.type, ent.size, some ent.data, true, d.stack,
      detachDeltaBaseCacheEntry d.cache ent⟩)
  | none =>
    if p.crcOk d.objOffset = false then .inr (.badCrc d.cache)
    else
      match unpackObjectHeader p d.objOffset with
      | (none, size, curpos) => .inr (.base ⟨d.objOffset, curpos, none, size, none, false, d.stack, d.cache⟩)
      | (some type, size, curpos) =>
        if IsDelta type then
          match getDeltaBase p curpos type d.objOffset with
          | none => .inr (.base ⟨d.objOffset, curpos, some type, size, none, false, d.stack, d.cache⟩)
          | some base => .inl ⟨base.1, ⟨d.objOffset, base.2, size⟩ :: d.stack, d.cache⟩
        else .inr (.base ⟨d.objOffset, curpos, some type, size, none, false, d.stack, d.cache⟩)

def handleBase (p : PackFile) (b : BaseFound) : Option (Option (List UInt8)) :=
  match b.type with
  | none => some none
  | some type =>
    if IsDelta type then if b.data.isSome then none else some none
    else if IsWhole type then some (if b.baseFromCache = false then unpackCompressedEntry p b.curpos b.size else b.data)
    else some none

structure UnpackedEntry where
  data : Option (List UInt8)
  type : Option Nat
  size : Nat
  cache : DeltaBaseCache

/-- Phase 3: the deltas of the stack. `u` has the data, type and size of the object at `objOffset`. -/
def applyDeltas (limit : Nat) (p : PackFile) (pack : Nat) : List UnpackEntryStackEnt → Nat → UnpackedEntry → UnpackedEntry
  | [], _, u => u
  | ent :: stack, objOffset, u =>
    match u.data with
    | some base =>
      let data := (unpackCompressedEntry p ent.curpos ent.size).bind fun delta => (Delta.patchDelta base delta).toOption
      applyDeltas limit p pack stack ent.objOffset
        { u with
          data := data
          size := (data.map List.length).getD u.size
          cache := addDeltaBaseCache limit u.cache ⟨pack, objOffset, base, u.size, u.type.getD 0⟩ }
    | none =>
      -- the base is fetched from elsewhere, and not cached
      match p.readElsewhere objOffset with
      | none => applyDeltas limit p pack stack ent.objOffset u
      | some base =>
        let data := (unpackCompressedEntry p ent.curpos ent.size).bind fun delta =>
          (Delta.patchDelta base.2 delta).toOption
        applyDeltas limit p pack stack ent.objOffset
          { u with
            data := data
            type := some base.1
            size := (data.map List.length).getD u.size }

def finishUnpack (limit : Nat) (p : PackFile) (pack : Nat) : DrillEnd → Option UnpackedEntry
  | .badCrc cache => some ⟨none, none, 0, cache⟩
  | .base b => (handleBase p b).map fun data => applyDeltas limit p pack b.stack b.objOffset ⟨data, b.type, b.size, b.cache⟩

/-- `unpack_entry` with at most `fuel` rounds of phase 1; inside nothing is the BUG. -/
def unpackEntry (fuel limit : Nat) (p : PackFile) (pack : Nat) (cache : DeltaBaseCache) (objOffset : Nat) :
    Option (Option UnpackedEntry) :=
  (runFor (drillStep p pack) fuel ⟨objOffset, [], cache⟩).map (finishUnpack limit p pack)

end GitCore.Pack

/-!
# What unpacking returns

The recursive meaning of an offset in a pack, and that the loops and the cache agree with it.
-/

namespace GitCore.Pack

/-- The object at an offset when its chain is intact: the base is inflated, and each delta is applied. -/
inductive Unpacks (p : PackFile) : Nat → Nat → List UInt8 → Prop
  | whole {offset type size curpos : Nat} {data : List UInt8} (hcrc : p.crcOk offset = true)
      (hheader : unpackObjectHeader p offset = (some type, size, curpos)) (htype : IsWhole type)
      (hdata : unpackCompressedEntry p curpos size = some data) : Unpacks p offset type data
  | delta {offset base type dtype size curpos place : Nat} {baseData delta data : List UInt8}
      (hcrc : p.crcOk offset = true) (hheader : unpackObjectHeader p offset = (some dtype, size, curpos))
      (hdelta : IsDelta dtype) (hbase : getDeltaBase p curpos dtype offset = some (base, place))
      (hrest : Unpacks p base type baseData) (hinflate : unpackCompressedEntry p place size = some delta)
      (hpatch : Delta.patchDelta baseData delta = .ok data) : Unpacks p offset type data

/-- The object at an offset when the bases that cannot be read may also come from elsewhere. -/
inductive ObjectAt (p : PackFile) : Nat → Nat → List UInt8 → Prop
  | whole {offset type size curpos : Nat} {data : List UInt8}
      (hheader : unpackObjectHeader p offset = (some type, size, curpos)) (htype : IsWhole type)
      (hdata : unpackCompressedEntry p curpos size = some data) : ObjectAt p offset type data
  | delta {offset base type dtype size curpos place : Nat} {baseData delta data : List UInt8}
      (hheader : unpackObjectHeader p offset = (some dtype, size, curpos))
      (hdelta : IsDelta dtype) (hbase : getDeltaBase p curpos dtype offset = some (base, place))
      (hrest : ObjectAt p base type baseData) (hinflate : unpackCompressedEntry p place size = some delta)
      (hpatch : Delta.patchDelta baseData delta = .ok data) : ObjectAt p offset type data
  | elsewhere {offset type : Nat} {data : List UInt8} (h : p.readElsewhere offset = some (type, data)) :
      ObjectAt p offset type data

variable {p : PackFile}

lemma not_isDelta_of_isWhole {type : Nat} (h : IsWhole type) : ¬IsDelta type := by
  rintro (rfl | rfl)
  · exact absurd h.2 (by decide)
  · exact absurd h.2 (by decide)

variable {offset type : Nat}

lemma ObjectAt.isWhole {data : List UInt8} (h : ObjectAt p offset type data) : IsWhole type := by
  induction h with
  | whole _ htype _ => exact htype
  | delta _ _ _ _ _ _ ih => exact ih
  | elsewhere h => exact p.elsewhere_whole _ _ _ h

lemma Unpacks.crc {data : List UInt8} (h : Unpacks p offset type data) : p.crcOk offset = true := by
  cases h with
  | whole hcrc => exact hcrc
  | delta hcrc => exact hcrc

lemma Unpacks.of_whole {offset type type' size curpos : Nat} {data : List UInt8} (h : Unpacks p offset type' data)
    (hheader : unpackObjectHeader p offset = (some type, size, curpos)) (hnot : ¬IsDelta type) :
    type' = type ∧ IsWhole type ∧ unpackCompressedEntry p curpos size = some data := by
  cases h with
  | whole _ hheader' htype hdata =>
    rw [hheader] at hheader'
    cases hheader'
    exact ⟨rfl, htype, hdata⟩
  | delta _ hheader' hdelta =>
    rw [hheader] at hheader'
    cases hheader'
    exact absurd hdelta hnot

lemma Unpacks.of_delta {offset type dtype size curpos : Nat} {data : List UInt8} (h : Unpacks p offset type data)
    (hheader : unpackObjectHeader p offset = (some dtype, size, curpos)) (hdelta : IsDelta dtype) :
    ∃ base place baseData delta, getDeltaBase p curpos dtype offset = some (base, place) ∧ Unpacks p base type baseData ∧
      unpackCompressedEntry p place size = some delta ∧ Delta.patchDelta baseData delta = .ok data := by
  cases h with
  | whole _ hheader' htype =>
    rw [hheader] at hheader'
    cases hheader'
    exact absurd hdelta (not_isDelta_of_isWhole htype)
  | delta _ hheader' _ hbase hrest hinflate hpatch =>
    rw [hheader] at hheader'
    cases hheader'
    exact ⟨_, _, _, _, hbase, hrest, hinflate, hpatch⟩

structure Valued (p : PackFile) (offset : Nat) (data : Option (List UInt8)) (type : Option Nat) : Prop where
  intact : ∀ type' data', Unpacks p offset type' data' → data = some data' ∧ type = some type'
  object : ∀ data', data = some data' → ∃ type', type = some type' ∧ ObjectAt p offset type' data'

section Cache

structure EntryHolds (p : PackFile) (e : DeltaBaseCacheEntry) : Prop where
  size_eq : e.size = e.data.length
  valued : Valued p e.baseOffset (some e.data) (some e.type)

structure Agrees (packs : Nat → PackFile) (c : DeltaBaseCache) : Prop where
  holds : ∀ e ∈ c.lru, EntryHolds (packs e.pack) e
  keys : c.lru.Pairwise fun e f => hasKey e.pack e.baseOffset f = false
  cached_eq : c.cached = (c.lru.map DeltaBaseCacheEntry.size).sum

variable {packs : Nat → PackFile} {c : DeltaBaseCache}

lemma hasKey_iff {pack offset : Nat} {e : DeltaBaseCacheEntry} :
    hasKey pack offset e = true ↔ e.pack = pack ∧ e.baseOffset = offset := by
  rw [hasKey, Bool.and_eq_true, decide_eq_true_iff, decide_eq_true_iff]

lemma Agrees.get (h : Agrees packs c) {pack offset : Nat} {e : DeltaBaseCacheEntry}
    (hget : getDeltaBaseCacheEntry c pack offset = some e) :
    e ∈ c.lru ∧ e.pack = pack ∧ e.baseOffset = offset ∧ EntryHolds (packs pack) e := by
  have hmem := List.mem_of_find?_eq_some hget
  obtain ⟨rfl, rfl⟩ := hasKey_iff.mp (List.find?_some hget)
  exact ⟨hmem, rfl, rfl, h.holds e hmem⟩

lemma Agrees.detach (h : Agrees packs c) {e : DeltaBaseCacheEntry} (he : e ∈ c.lru) :
    Agrees packs (detachDeltaBaseCacheEntry c e) := by
  have hself : hasKey e.pack e.baseOffset e = true := hasKey_iff.mpr ⟨rfl, rfl⟩
  obtain ⟨f, before, after, hnot, hf, hsplit, herase⟩ := List.exists_of_eraseP he hself
  have hfe : f = e := by
    by_contra hne
    have hkeys := h.keys
    rw [hsplit] at he hkeys
    obtain ⟨-, hkeys, -⟩ := List.pairwise_append.mp hkeys
    rcases List.mem_append.mp he with he | he
    · exact absurd hself (hnot e he)
    · rcases List.mem_cons.mp he with heq | he
      · exact hne heq.symm
      · have hother := (List.pairwise_cons.mp hkeys).1 e he
        obtain ⟨hpack, hoffset⟩ := hasKey_iff.mp hf
        rw [hpack, hoffset, hself] at hother
        cases hother
  subst hfe
  refine ⟨fun x hx => h.holds x (List.mem_of_mem_eraseP hx), h.keys.sublist (List.eraseP_sublist ..), ?_⟩
  rw [detachDeltaBaseCacheEntry]
  dsimp only
  rw [h.cached_eq, herase, hsplit]
  simp only [List.map_append, List.map_cons, List.sum_append, List.sum_cons]
  omega

lemma releaseOver_spec (limit : Nat) (l : List DeltaBaseCacheEntry) (size : Nat) :
    (releaseOver limit l ((l.map DeltaBaseCacheEntry.size).sum + size)).lru <:+ l ∧
      (releaseOver limit l ((l.map DeltaBaseCacheEntry.size).sum + size)).cached =
        ((releaseOver limit l ((l.map DeltaBaseCacheEntry.size).sum + size)).lru.map DeltaBaseCacheEntry.size).sum + size := by
  induction l with
  | nil => exact ⟨List.suffix_refl _, rfl⟩
  | cons f l ih =>
    rw [releaseOver]
    split_ifs
    · exact ⟨List.suffix_refl _, rfl⟩
    · rw [List.map_cons, List.sum_cons, Nat.add_assoc, Nat.add_sub_cancel_left]
      exact ⟨ih.1.trans (List.suffix_cons f l), ih.2⟩

lemma Agrees.add (h : Agrees packs c) (limit : Nat) {e : DeltaBaseCacheEntry} (he : EntryHolds (packs e.pack) e) :
    Agrees packs (addDeltaBaseCache limit c e) := by
  rw [addDeltaBaseCache]
  split_ifs with hin
  · exact h
  · rw [Option.not_isSome_iff_eq_none, getDeltaBaseCacheEntry, List.find?_eq_none] at hin
    obtain ⟨hsuffix, hcached⟩ := releaseOver_spec limit c.lru e.size
    rw [← h.cached_eq] at hsuffix hcached
    refine ⟨fun x hx => ?_, ?_, ?_⟩
    · rcases List.mem_append.mp hx with hx | hx
      · exact h.holds x (hsuffix.mem hx)
      · rw [List.mem_singleton.mp hx]
        exact he
    · refine List.pairwise_append.mpr ⟨h.keys.sublist hsuffix.sublist, List.pairwise_singleton _ _, fun x hx y hy => ?_⟩
      rw [List.mem_singleton.mp hy, Bool.eq_false_iff]
      intro hsame
      obtain ⟨hpack, hoffset⟩ := hasKey_iff.mp hsame
      exact hin x (hsuffix.mem hx) (hasKey_iff.mpr ⟨hpack.symm, hoffset.symm⟩)
    · dsimp only
      rw [hcached, List.map_append, List.sum_append, List.map_singleton, List.sum_singleton]

end Cache

section Phases

variable {packs : Nat → PackFile} {pack limit : Nat}

def IsDeltaOf (p : PackFile) (ent : UnpackEntryStackEnt) (base : Nat) : Prop :=
  p.crcOk ent.objOffset = true ∧ ∃ dtype curpos, unpackObjectHeader p ent.objOffset = (some dtype, ent.size, curpos) ∧
    IsDelta dtype ∧ getDeltaBase p curpos dtype ent.objOffset = some (base, ent.curpos)

def IsStack (p : PackFile) (offset : Nat) : List UnpackEntryStackEnt → Nat → Prop
  | [], cur => cur = offset
  | ent :: stack, cur => IsDeltaOf p ent cur ∧ IsStack p offset stack ent.objOffset

lemma IsDeltaOf.unpacks {ent : UnpackEntryStackEnt} {base type : Nat} {data : List UInt8} (h : IsDeltaOf p ent base)
    (hobj : Unpacks p ent.objOffset type data) :
    ∃ baseData delta, Unpacks p base type baseData ∧ unpackCompressedEntry p ent.curpos ent.size = some delta ∧
      Delta.patchDelta baseData delta = .ok data := by
  obtain ⟨-, dtype, curpos, hheader, hdelta, hbase⟩ := h
  obtain ⟨base', place, baseData, delta, hbase', hrest, hinflate, hpatch⟩ := hobj.of_delta hheader hdelta
  rw [hbase] at hbase'
  cases hbase'
  exact ⟨baseData, delta, hrest, hinflate, hpatch⟩

lemma IsStack.unpacks {data : List UInt8} {stack : List UnpackEntryStackEnt} {cur : Nat}
    (h : IsStack p offset stack cur) (hobj : Unpacks p offset type data) : ∃ data', Unpacks p cur type data' := by
  induction stack generalizing cur with
  | nil =>
    rw [IsStack] at h
    exact ⟨data, h ▸ hobj⟩
  | cons ent stack ih =>
    obtain ⟨data', hdata'⟩ := ih h.2
    obtain ⟨baseData, -, hbase, -⟩ := h.1.unpacks hdata'
    exact ⟨baseData, hbase⟩

lemma IsDeltaOf.valued {ent : UnpackEntryStackEnt} {cur type : Nat} {base : List UInt8} (h : IsDeltaOf p ent cur)
    (hobject : ObjectAt p cur type base)
    (hintact : ∀ type' data', Unpacks p cur type' data' → base = data' ∧ type = type') :
    Valued p ent.objOffset
      ((unpackCompressedEntry p ent.curpos ent.size).bind fun delta => (Delta.patchDelta base delta).toOption)
      (some type) := by
  refine ⟨fun type' data' hobj => ?_, fun data' hdata => ⟨type, rfl, ?_⟩⟩
  · obtain ⟨baseData, delta, hbase, hinflate, hpatch⟩ := h.unpacks hobj
    obtain ⟨rfl, rfl⟩ := hintact _ _ hbase
    rw [hinflate, Option.bind_some, hpatch]
    exact ⟨rfl, rfl⟩
  · obtain ⟨-, dtype, curpos, hheader, hdelta, hbase⟩ := h
    obtain ⟨delta, hinflate, hpatch⟩ := Option.bind_eq_some_iff.mp hdata
    refine .delta hheader hdelta hbase hobject hinflate ?_
    cases hresult : Delta.patchDelta base delta with
    | error e =>
      rw [hresult] at hpatch
      cases hpatch
    | ok data =>
      rw [hresult] at hpatch
      cases hpatch
      rfl

lemma IsDeltaOf.not_intact {ent : UnpackEntryStackEnt} {cur : Nat} {type : Option Nat} (h : IsDeltaOf p ent cur)
    (hvalued : Valued p cur none type) (type' : Nat) (data : List UInt8) : ¬Unpacks p ent.objOffset type' data := by
  intro hobj
  obtain ⟨baseData, -, hbase, -⟩ := h.unpacks hobj
  have hfalse := (hvalued.intact _ _ hbase).1
  cases hfalse

def SizeIs (u : UnpackedEntry) : Prop := ∀ data, u.data = some data → u.size = data.length

variable {offset : Nat}

theorem applyDeltas_spec {stack : List UnpackEntryStackEnt} {cur : Nat} {u : UnpackedEntry}
    (hstack : IsStack (packs pack) offset stack cur) (hagrees : Agrees packs u.cache)
    (hvalued : Valued (packs pack) cur u.data u.type) (hsize : SizeIs u) :
    Agrees packs (applyDeltas limit (packs pack) pack stack cur u).cache ∧
      Valued (packs pack) offset (applyDeltas limit (packs pack) pack stack cur u).data
        (applyDeltas limit (packs pack) pack stack cur u).type ∧
      SizeIs (applyDeltas limit (packs pack) pack stack cur u) := by
  induction stack generalizing cur u with
  | nil =>
    rw [IsStack] at hstack
    rw [applyDeltas, ← hstack]
    exact ⟨hagrees, hvalued, hsize⟩
  | cons ent stack ih =>
    obtain ⟨hent, hstack⟩ := hstack
    have hnewSize : ∀ (data : Option (List UInt8)) (type : Option Nat) (cache : DeltaBaseCache),
        SizeIs ⟨data, type, (data.map List.length).getD u.size, cache⟩ := fun data type cache data' hdata => by
      dsimp only at hdata ⊢
      rw [hdata]
      rfl
    rw [applyDeltas]
    cases hdata : u.data with
    | some base =>
      obtain ⟨type, htype, hobject⟩ := hvalued.object base hdata
      dsimp only
      refine ih hstack (hagrees.add limit ⟨hsize base hdata, ?_⟩) ?_ (hnewSize _ _ _)
      · dsimp only
        rw [htype]
        refine ⟨fun type' data' hobj => ?_, fun data' heq => ⟨type, rfl, by cases heq; exact hobject⟩⟩
        have hintact := hvalued.intact type' data' hobj
        rw [hdata, htype] at hintact
        exact hintact
      · dsimp only
        rw [htype]
        refine hent.valued hobject fun type' data' hobj => ?_
        have hintact := hvalued.intact type' data' hobj
        rw [hdata, htype, Option.some_inj, Option.some_inj] at hintact
        exact hintact
    | none =>
      rw [hdata] at hvalued
      dsimp only
      cases helse : (packs pack).readElsewhere cur with
      | none =>
        dsimp only
        refine ih hstack hagrees ⟨fun type' data' hobj => ?_, fun data' hsome => ?_⟩ hsize
        · exact absurd hobj (hent.not_intact hvalued type' data')
        · rw [hdata] at hsome
          cases hsome
      | some base =>
        dsimp only
        refine ih hstack hagrees (hent.valued (.elsewhere helse) fun type' data' hobj => ?_) (hnewSize _ _ _)
        have hfalse := (hvalued.intact _ _ hobj).1
        cases hfalse

def EndsWith (packs : Nat → PackFile) (pack offset : Nat) : DrillEnd → Prop
  | .badCrc cache => Agrees packs cache ∧ ∀ type data, ¬Unpacks (packs pack) offset type data
  | .base b => IsStack (packs pack) offset b.stack b.objOffset ∧ Agrees packs b.cache ∧
      ∃ data, handleBase (packs pack) b = some data ∧ Valued (packs pack) b.objOffset data b.type ∧
        ∀ data', data = some data' → b.size = data'.length

lemma unpackCompressedEntry_length {curpos size : Nat} {data : List UInt8}
    (h : unpackCompressedEntry p curpos size = some data) : size = data.length := by
  rw [unpackCompressedEntry, Option.filter_eq_some_iff, decide_eq_true_iff] at h
  exact h.2.symm

lemma unpackObjectHeader_unique {r r' : Option Nat × Nat × Nat} (h : unpackObjectHeader p offset = r)
    (h' : unpackObjectHeader p offset = r') : r = r' := h.symm.trans h'

lemma not_unpacks_of_bad {offset size curpos : Nat} (hheader : unpackObjectHeader p offset = (none, size, curpos))
    (type : Nat) (data : List UInt8) : ¬Unpacks p offset type data := by
  intro hobj
  cases hobj with
  | whole _ hheader' => cases unpackObjectHeader_unique hheader hheader'
  | delta _ hheader' => cases unpackObjectHeader_unique hheader hheader'

lemma endsWith_of_drillStep {d : Drill} {r : DrillEnd}
    (hstack : IsStack (packs pack) offset d.stack d.objOffset) (hagrees : Agrees packs d.cache)
    (h : drillStep (packs pack) pack d = .inr r) : EndsWith packs pack offset r := by
  rw [drillStep] at h
  cases hget : getDeltaBaseCacheEntry d.cache pack d.objOffset with
  | some ent =>
    obtain ⟨hmem, -, hoffset, hholds⟩ := hagrees.get hget
    rw [hget] at h
    rw [← Sum.inr.inj h]
    have hvalued := hholds.valued
    rw [hoffset] at hvalued
    obtain ⟨type, htype, hobject⟩ := hvalued.object _ rfl
    have hwhole := hobject.isWhole
    rw [← Option.some_inj.mp htype] at hwhole
    refine ⟨hstack, hagrees.detach hmem, some ent.data, ?_, hvalued, fun data' hdata => ?_⟩
    · rw [handleBase]
      dsimp only
      rw [if_neg (not_isDelta_of_isWhole hwhole), if_pos hwhole, if_neg (by decide)]
    · rw [← Option.some_inj.mp hdata]
      exact hholds.size_eq
  | none =>
    rw [hget] at h
    dsimp only at h
    split_ifs at h with hcrc
    · rw [← Sum.inr.inj h]
      refine ⟨hagrees, fun type data hobj => ?_⟩
      obtain ⟨data', hdata'⟩ := hstack.unpacks hobj
      rw [hdata'.crc] at hcrc
      cases hcrc
    · have hno : ∀ {size curpos : Nat} {type : Option Nat}, (∀ type' data, ¬Unpacks (packs pack) d.objOffset type' data) →
          handleBase (packs pack) ⟨d.objOffset, curpos, type, size, none, false, d.stack, d.cache⟩ = some none →
          EndsWith packs pack offset (.base ⟨d.objOffset, curpos, type, size, none, false, d.stack, d.cache⟩) :=
        fun hnot hbase => ⟨hstack, hagrees, none, hbase, ⟨fun type' data hobj => absurd hobj (hnot type' data),
          fun _ hfalse => (by cases hfalse)⟩, fun _ hfalse => (by cases hfalse)⟩
      rcases hheader : unpackObjectHeader (packs pack) d.objOffset with ⟨type, size, curpos⟩
      rw [hheader] at h
      cases type with
      | none =>
        rw [← Sum.inr.inj h]
        exact hno (not_unpacks_of_bad hheader) rfl
      | some type =>
        dsimp only at h
        split_ifs at h with hdelta
        · cases hbase : getDeltaBase (packs pack) curpos type d.objOffset with
          | none =>
            rw [hbase] at h
            rw [← Sum.inr.inj h]
            refine hno (fun type' data hobj => ?_) ?_
            · obtain ⟨_, _, _, _, hbase', -⟩ := hobj.of_delta hheader hdelta
              rw [hbase] at hbase'
              cases hbase'
            · rw [handleBase]
              dsimp only
              rw [if_pos hdelta]
              rfl
          | some base =>
            rw [hbase] at h
            cases h
        · rw [← Sum.inr.inj h]
          by_cases hwhole : IsWhole type
          · refine ⟨hstack, hagrees, unpackCompressedEntry (packs pack) curpos size, ?_,
              ⟨fun type' data hobj => ?_, fun data hdata => ⟨type, rfl, .whole hheader hwhole hdata⟩⟩,
              fun data hdata => unpackCompressedEntry_length hdata⟩
            · rw [handleBase]
              dsimp only
              rw [if_neg hdelta, if_pos hwhole, if_pos rfl]
            · obtain ⟨rfl, -, hdata⟩ := hobj.of_whole hheader hdelta
              exact ⟨hdata, rfl⟩
          · refine hno (fun type' data hobj => hwhole (hobj.of_whole hheader hdelta).2.1) ?_
            rw [handleBase]
            dsimp only
            rw [if_neg hdelta, if_neg hwhole]

def BaseStep (p : PackFile) (pack : Nat) (cache : DeltaBaseCache) (offset base : Nat) : Prop :=
  getDeltaBaseCacheEntry cache pack offset = none ∧
    ∃ size curpos, IsDeltaOf p ⟨offset, curpos, size⟩ base

lemma drillStep_inl {d d' : Drill} (h : drillStep p pack d = .inl d') :
    BaseStep p pack d.cache d.objOffset d'.objOffset ∧ d'.cache = d.cache ∧
      ∃ ent, d'.stack = ent :: d.stack ∧ ent.objOffset = d.objOffset ∧ IsDeltaOf p ent d'.objOffset := by
  rw [drillStep] at h
  cases hget : getDeltaBaseCacheEntry d.cache pack d.objOffset with
  | some ent =>
    rw [hget] at h
    cases h
  | none =>
    rw [hget] at h
    dsimp only at h
    split_ifs at h with hcrc
    rcases hheader : unpackObjectHeader p d.objOffset with ⟨type, size, curpos⟩
    rw [hheader] at h
    cases type with
    | none => cases h
    | some type =>
      dsimp only at h
      split_ifs at h with hdelta
      cases hbase : getDeltaBase p curpos type d.objOffset with
      | none =>
        rw [hbase] at h
        cases h
      | some base =>
        rw [hbase] at h
        rw [← Sum.inl.inj h]
        rw [Bool.not_eq_false] at hcrc
        exact ⟨⟨hget, size, base.2, hcrc, type, curpos, hheader, hdelta, hbase⟩, rfl, _, rfl, rfl, hcrc, type, curpos,
          hheader, hdelta, hbase⟩

lemma drillStep_of_baseStep {d : Drill} {base : Nat} (h : BaseStep p pack d.cache d.objOffset base) :
    ∃ d', drillStep p pack d = .inl d' ∧ d'.objOffset = base := by
  obtain ⟨hget, size, place, hcrc, dtype, curpos, hheader, hdelta, hbase⟩ := h
  refine ⟨⟨base, ⟨d.objOffset, place, size⟩ :: d.stack, d.cache⟩, ?_, rfl⟩
  rw [drillStep, hget]
  dsimp only at hcrc hheader hbase ⊢
  rw [hcrc, if_neg (by decide), hheader]
  dsimp only
  rw [if_pos hdelta, hbase]

lemma endsWith_of_run {offset fuel : Nat} {d : Drill} {r : DrillEnd} (hstack : IsStack (packs pack) offset d.stack d.objOffset)
    (hagrees : Agrees packs d.cache) (h : runFor (drillStep (packs pack) pack) fuel d = some r) :
    EndsWith packs pack offset r := by
  induction fuel generalizing d with
  | zero => cases h
  | succ fuel ih =>
    rw [runFor] at h
    cases hstep : drillStep (packs pack) pack d with
    | inl d' =>
      rw [hstep] at h
      obtain ⟨-, hcache, ent, hpush, hent, hdelta⟩ := drillStep_inl hstep
      refine ih ?_ (by rw [hcache]; exact hagrees) h
      rw [hpush]
      exact ⟨hdelta, hent ▸ hstack⟩
    | inr r' =>
      rw [hstep] at h
      rw [← Option.some_inj.mp h]
      exact endsWith_of_drillStep hstack hagrees hstep

lemma finishUnpack_spec {r : DrillEnd} (h : EndsWith packs pack offset r) :
    ∃ u, finishUnpack limit (packs pack) pack r = some u ∧ Agrees packs u.cache ∧
      Valued (packs pack) offset u.data u.type ∧ SizeIs u := by
  cases r with
  | badCrc cache =>
    exact ⟨_, rfl, h.1, ⟨fun type data hobj => absurd hobj (h.2 type data), fun _ hfalse => (by cases hfalse)⟩,
      fun _ hfalse => (by cases hfalse)⟩
  | base b =>
    obtain ⟨hstack, hagrees, data, hbase, hvalued, hsize⟩ := h
    refine ⟨_, ?_, @applyDeltas_spec packs pack limit offset b.stack b.objOffset ⟨data, b.type, b.size, b.cache⟩
      hstack hagrees hvalued hsize⟩
    rw [finishUnpack, hbase, Option.map_some]

variable {cache : DeltaBaseCache}

lemma acc_of_run {fuel : Nat} {d : Drill} {r : DrillEnd} (h : runFor (drillStep p pack) fuel d = some r) :
    Acc (fun b o => BaseStep p pack d.cache o b) d.objOffset := by
  induction fuel generalizing d with
  | zero => cases h
  | succ fuel ih =>
    refine .intro _ fun base hbase => ?_
    obtain ⟨d', hstep, rfl⟩ := drillStep_of_baseStep hbase
    rw [runFor, hstep] at h
    rw [← (drillStep_inl hstep).2.1]
    exact ih h

lemma Unpacks.acc {data : List UInt8} (h : Unpacks p offset type data) :
    Acc (fun b o => BaseStep p pack cache o b) offset := by
  induction h with
  | whole hcrc hheader htype =>
    refine .intro _ fun base hbase => ?_
    obtain ⟨-, size, place, -, dtype, curpos, hheader', hdelta, -⟩ := hbase
    cases unpackObjectHeader_unique hheader hheader'
    exact absurd hdelta (not_isDelta_of_isWhole htype)
  | delta hcrc hheader hdelta hbase hrest hinflate hpatch ih =>
    refine .intro _ fun base' hbase' => ?_
    obtain ⟨-, size, place, -, dtype, curpos, hheader', -, hbase''⟩ := hbase'
    cases unpackObjectHeader_unique hheader hheader'
    rw [hbase] at hbase''
    cases hbase''
    exact ih

def RunsIntoCycle (p : PackFile) (pack : Nat) (cache : DeltaBaseCache) (offset : Nat) : Prop :=
  ∃ x, Relation.ReflTransGen (BaseStep p pack cache) offset x ∧ Relation.TransGen (BaseStep p pack cache) x x

lemma not_runsIntoCycle_of_acc (h : Acc (fun b o => BaseStep p pack cache o b) offset) :
    ¬RunsIntoCycle p pack cache offset := by
  induction h with
  | intro offset _ ih =>
    rintro ⟨x, hreach, hcycle⟩
    rcases Relation.ReflTransGen.cases_head hreach with rfl | ⟨b, hb, hreach⟩
    · obtain ⟨b, hb, hback⟩ := Relation.TransGen.head'_iff.mp hcycle
      exact ih b hb ⟨b, .refl, Relation.TransGen.tail'_iff.mpr ⟨offset, hback, hb⟩⟩
    · exact ih b hb ⟨x, hreach, hcycle⟩

lemma BaseStep.lt {offset base : Nat} (h : BaseStep p pack cache offset base) : offset < p.bytes.length := by
  obtain ⟨-, size, place, -, dtype, curpos, hheader, -⟩ := h
  by_contra hge
  rw [unpackObjectHeader, List.drop_eq_nil_of_le (Nat.le_of_not_lt hge)] at hheader
  cases hheader

lemma exists_walk (d : Drill) (hcache : d.cache = cache) (n : Nat) :
    (∃ fuel r, runFor (drillStep p pack) fuel d = some r) ∨
      ∃ walk : Nat → Nat, walk 0 = d.objOffset ∧ ∀ i < n, BaseStep p pack cache (walk i) (walk (i + 1)) := by
  induction n generalizing d with
  | zero => exact .inr ⟨fun _ => d.objOffset, rfl, fun i hi => absurd hi (Nat.not_lt_zero i)⟩
  | succ n ih =>
    cases hstep : drillStep p pack d with
    | inr r => exact .inl ⟨1, r, by rw [runFor, hstep]⟩
    | inl d' =>
      obtain ⟨hbase, hcache', -⟩ := drillStep_inl hstep
      rcases ih d' (hcache'.trans hcache) with ⟨fuel, r, hrun⟩ | ⟨walk, hstart, hwalk⟩
      · exact .inl ⟨fuel + 1, r, by rw [runFor, hstep]; exact hrun⟩
      · refine .inr ⟨fun i => if i = 0 then d.objOffset else walk (i - 1), if_pos rfl, fun i hi => ?_⟩
        cases i with
        | zero =>
          dsimp only
          rw [if_pos rfl, if_neg (Nat.succ_ne_zero _), Nat.add_sub_cancel, hstart, ← hcache]
          exact hbase
        | succ i =>
          dsimp only
          rw [if_neg (Nat.succ_ne_zero _), if_neg (Nat.succ_ne_zero _), Nat.add_sub_cancel, Nat.add_sub_cancel]
          exact hwalk i (Nat.lt_of_succ_lt_succ hi)

lemma walk_reaches {walk : Nat → Nat} {n i j : Nat} (hwalk : ∀ i < n, BaseStep p pack cache (walk i) (walk (i + 1)))
    (hij : i ≤ j) (hj : j ≤ n) : Relation.ReflTransGen (BaseStep p pack cache) (walk i) (walk j) := by
  induction j, hij using Nat.le_induction with
  | base => exact .refl
  | succ j hij ih => exact (ih (Nat.le_of_succ_le hj)).tail (hwalk j hj)

lemma exists_run_of_noCycle (h : ¬RunsIntoCycle p pack cache offset) :
    ∃ fuel r, runFor (drillStep p pack) fuel ⟨offset, [], cache⟩ = some r := by
  rcases @exists_walk p pack cache ⟨offset, [], cache⟩ rfl (p.bytes.length + 1) with hrun | ⟨walk, hstart, hwalk⟩
  · exact hrun
  · -- a walk that long comes to an offset twice
    obtain ⟨i, j, hne, heq⟩ := Fintype.exists_ne_map_eq_of_card_lt
      (fun i : Fin (p.bytes.length + 1) => (⟨walk i, (hwalk i i.isLt).lt⟩ : Fin p.bytes.length)) (by simp)
    rw [Fin.mk.injEq] at heq
    have hcycle : ∀ i j : Fin (p.bytes.length + 1), i < j → walk i = walk j → RunsIntoCycle p pack cache offset :=
      fun i j hlt heq => by
        have hreached := walk_reaches hwalk (Nat.zero_le _) i.isLt.le
        rw [hstart] at hreached
        refine ⟨walk i, hreached, ?_⟩
        refine Relation.TransGen.head'_iff.mpr ⟨walk (i + 1), hwalk i i.isLt, ?_⟩
        have hreach := walk_reaches hwalk (Nat.succ_le_of_lt hlt) j.isLt.le
        rw [← heq] at hreach
        exact hreach
    rcases lt_or_gt_of_ne hne with hlt | hlt
    · exact absurd (hcycle i j hlt heq) h
    · exact absurd (hcycle j i hlt heq.symm) h

/-- `unpack_entry` ends unless the bases run into a cycle without a cached object. Where it ends, it
has not reached its BUG, the cache agrees with the packs again, and an intact object is returned as it
is; intact objects lead to no cycle. -/
theorem unpackEntry_spec (packs : Nat → PackFile) (pack limit : Nat) {cache : DeltaBaseCache}
    (hcache : Agrees packs cache) (offset : Nat) :
    ((∃ fuel r, unpackEntry fuel limit (packs pack) pack cache offset = some r) ↔
        ¬RunsIntoCycle (packs pack) pack cache offset) ∧
      (∀ type data, Unpacks (packs pack) offset type data → ¬RunsIntoCycle (packs pack) pack cache offset) ∧
      ∀ fuel r, unpackEntry fuel limit (packs pack) pack cache offset = some r →
        ∃ u, r = some u ∧ Agrees packs u.cache ∧
          (∀ type data, Unpacks (packs pack) offset type data →
            u.data = some data ∧ u.type = some type ∧ u.size = data.length) ∧
          ∀ data, u.data = some data → ∃ type, u.type = some type ∧ ObjectAt (packs pack) offset type data := by
  refine ⟨⟨fun ⟨fuel, r, hrun⟩ => ?_, fun hno => ?_⟩, fun type data hobj => not_runsIntoCycle_of_acc hobj.acc,
    fun fuel r hrun => ?_⟩
  · obtain ⟨r', hr', -⟩ := Option.map_eq_some_iff.mp hrun
    exact not_runsIntoCycle_of_acc (acc_of_run hr')
  · obtain ⟨fuel, r, hrun⟩ := exists_run_of_noCycle hno
    exact ⟨fuel, _, by rw [unpackEntry, hrun, Option.map_some]⟩
  · obtain ⟨r', hr', rfl⟩ := Option.map_eq_some_iff.mp hrun
    obtain ⟨u, hu, hagrees, hvalued, hsize⟩ := @finishUnpack_spec packs pack limit offset r'
      (endsWith_of_run (d := ⟨offset, [], cache⟩) rfl hcache hr')
    refine ⟨u, hu, hagrees, fun type data hobj => ?_, hvalued.object⟩
    obtain ⟨hdata, htype⟩ := hvalued.intact type data hobj
    exact ⟨hdata, htype, hsize data hdata⟩

end Phases

section Samples

def sampleStream : List UInt8 := [120, 156, 171, 0, 0, 0, 121, 0, 121]

def sampleDeltaStream : List UInt8 := [120, 156, 99, 100, 100, 172, 4, 0, 0, 134, 0, 125]

def sampleInflate (stream : List UInt8) : Option (List UInt8) :=
  if stream.take 9 = sampleStream then some [120]
  else if stream.take 12 = sampleDeltaStream then some [1, 1, 1, 121]
  else none

def samplePackFile : PackFile where
  bytes := List.replicate 12 0 ++ 49 :: (sampleStream ++ 100 :: 10 :: sampleDeltaStream)
  inflate := sampleInflate
  rawsz := 1
  findPackEntryOne := fun _ => none
  crcOk := fun _ => true
  readElsewhere := fun _ => none
  elsewhere_whole := fun _ _ _ h => by cases h

def sampleCache : DeltaBaseCache := ⟨[⟨0, 12, [120], 1, 3⟩], 1⟩

lemma samplePackFile_blob : Unpacks samplePackFile 12 3 [120] :=
  .whole rfl (show unpackObjectHeader samplePackFile 12 = (some 3, 1, 13) by decide) (by decide) (by decide)

lemma sampleDelta_applies : Delta.patchDelta [120] [1, 1, 1, 121] = .ok [121] := by
  have hinsert : (1 : UInt8) &&& 128 = 0 := by decide
  simp [hinsert, Delta.patchDelta, Delta.getDeltaHdrSize, Delta.DELTA_SIZE_MIN, Delta.getDeltaHdrSizeAux, Delta.stLeftShift,
    Delta.patchLoop, bind, Except.bind, pure, Except.pure]

lemma samplePackFile_delta : Unpacks samplePackFile 22 3 [121] :=
  .delta rfl (show unpackObjectHeader samplePackFile 22 = (some 6, 4, 23) by decide) (by decide)
    (show getDeltaBase samplePackFile 23 6 22 = some (12, 24) by decide) samplePackFile_blob
    (show unpackCompressedEntry samplePackFile 24 4 = some [1, 1, 1, 121] by decide)
    sampleDelta_applies

lemma sampleCache_agrees : Agrees (fun _ => samplePackFile) sampleCache where
  holds e he := by
    rw [List.mem_singleton.mp he]
    refine ⟨rfl, fun type data hobj => ?_, fun data hdata => ⟨3, rfl, ?_⟩⟩
    · have hheader : unpackObjectHeader samplePackFile 12 = (some 3, 1, 13) := by decide
      obtain ⟨rfl, -, hdata⟩ := hobj.of_whole hheader (by decide)
      refine ⟨?_, rfl⟩
      rw [← hdata]
      decide
    · rw [← Option.some_inj.mp hdata]
      exact .whole (show unpackObjectHeader samplePackFile 12 = (some 3, 1, 13) by decide) (by decide) (by decide)
  keys := List.pairwise_singleton _ _
  cached_eq := rfl

theorem unpackEntry_spec_sample :
    ∃ fuel u, unpackEntry fuel 100 samplePackFile 0 sampleCache 22 = some (some u) ∧ u.data = some [121] ∧
      Agrees (fun _ => samplePackFile) u.cache := by
  obtain ⟨hends, hintact, hspec⟩ := unpackEntry_spec (fun _ => samplePackFile) 0 100 sampleCache_agrees 22
  obtain ⟨fuel, r, hrun⟩ := hends.mpr (hintact 3 [121] samplePackFile_delta)
  obtain ⟨u, rfl, hagrees, hobj, -⟩ := hspec fuel r hrun
  exact ⟨fuel, u, hrun, (hobj 3 [121] samplePackFile_delta).1, hagrees⟩

def sampleCycle : PackFile where
  bytes := List.replicate 12 0 ++ [116, 1, 120, 116, 0, 120]
  inflate := fun _ => none
  rawsz := 1
  findPackEntryOne := fun oid => if oid = [0] then some 12 else if oid = [1] then some 15 else none
  crcOk := fun _ => true
  readElsewhere := fun _ => none
  elsewhere_whole := fun _ _ _ h => by cases h

/-- No number of rounds is enough in a cycle. -/
theorem unpackEntry_cycle : ¬∃ fuel r, unpackEntry fuel 100 sampleCycle 0 ⟨[], 0⟩ 12 = some r := by
  rintro ⟨fuel, r, hrun⟩
  obtain ⟨r', hr', -⟩ := Option.map_eq_some_iff.mp hrun
  refine not_runsIntoCycle_of_acc (acc_of_run hr') ⟨12, .refl, ?_⟩
  have hthere : BaseStep sampleCycle 0 ⟨[], 0⟩ 12 15 := ⟨rfl, 4, 14, rfl, 7, 13, by decide, by decide, by decide⟩
  have hback : BaseStep sampleCycle 0 ⟨[], 0⟩ 15 12 := ⟨rfl, 4, 17, rfl, 7, 16, by decide, by decide, by decide⟩
  exact .head hthere (.single hback)

end Samples

end GitCore.Pack
