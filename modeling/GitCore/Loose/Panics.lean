import GitCore.Loose.FileSpec

/-!
# Lookups that may panic

The functions on a map in memory once more, with every slice expression, every sum and product of sizes and every
division checked. What `new` has checked of the file keeps the calls inside of it, as long as no abbreviation is longer
than the object IDs.
-/

namespace GitCore.Loose.Panics

inductive Panic
  | outOfRange
  | overflow
  | divideByZero
  deriving DecidableEq

def add (a b : Nat) : Except Panic Nat := if a + b < 2 ^ 64 then .ok (a + b) else .error .overflow

def sub (a b : Nat) : Except Panic Nat := if b ≤ a then .ok (a - b) else .error .overflow

def mul (a b : Nat) : Except Panic Nat := if a * b < 2 ^ 64 then .ok (a * b) else .error .overflow

def div (a b : Nat) : Except Panic Nat := if b = 0 then .error .divideByZero else .ok (a / b)

def rem (a b : Nat) : Except Panic Nat := if b = 0 then .error .divideByZero else .ok (a % b)

/-- `&data[start..stop]` -/
def range (data : List UInt8) (start stop : Nat) : Except Panic (List UInt8) :=
  if start ≤ stop ∧ stop ≤ data.length then .ok (slice data start (stop - start)) else .error .outOfRange

def u32AtOffset (data : List UInt8) (offset : Nat) : Except Panic Nat := do
  let bytes ← range data offset (← add offset 4)
  return beValue bytes

/-- The loop of `binary_search_by`, with a comparison that may panic. -/
def searchBase (f : Nat → Except Panic Ordering) (base size : Nat) : Except Panic Nat :=
  if _h : size > 1 then do
    let half := size / 2
    let mid := base + half
    let cmp ← f mid
    searchBase f (if cmp = .gt then base else mid) (size - half)
  else return base
termination_by size
decreasing_by omega

def binarySearchBy (f : Nat → Except Panic Ordering) (size : Nat) : Except Panic (Option Nat) :=
  if size = 0 then return none
  else do
    let base ← searchBase f 0 size
    let cmp ← f base
    return if cmp = .eq then some base else none

def binarySearchSlice (sl wanted : List UInt8) : Except Panic (Option Nat) := do
  let len := wanted.length
  let res ← binarySearchBy (fun index => do
    let index ← sub index (← rem index len)
    let item ← range sl index (← add index wanted.length)
    return compare item wanted) sl.length
  match res with
  | none => return none
  | some offset => return some (← div offset len)

variable (self : MmapedObjectMap)

/-- `&self.memory[oid_offset..oid_offset + raw_len]` for the entry at an index of the table of whole names. -/
def fullEntry (params : ObjectFormatData) (index rawLen : Nat) : Except Panic (List UInt8) := do
  let oidOffset ← add params.fullOff (← mul index rawLen)
  range self.memory oidOffset (← add oidOffset rawLen)

def lookUpObject (oid : ObjectID) : Except Panic (Option Nat) :=
  match self.objFormats oid.algo with
  | none => return none
  | some params => do
    let shortTable ← range self.memory params.dataOff
      (← add params.dataOff (← mul params.shortenedLen self.nitems))
    let wanted ← range oid.asSlice 0 params.shortenedLen
    match ← binarySearchSlice shortTable wanted with
    | none => return none
    | some index =>
      match params.mappingOff with
      | some fromOff => do
        let mapped ← u32AtOffset self.memory (← add fromOff (← mul index 4))
        if mapped ≥ self.nitems then return none
        let bytes ← fullEntry self params mapped oid.algo.rawLen
        return if bytes ≠ oid.asSlice then none else some mapped
      | none => do
        let bytes ← fullEntry self params index oid.algo.rawLen
        return if bytes ≠ oid.asSlice then none else some index

def oidFromOffset (offset : Nat) (algo : HashAlgorithm) : Except Panic (Option ObjectID) :=
  match self.objFormats algo with
  | none => return none
  | some aparams => do
    let bytes ← fullEntry self aparams offset algo.rawLen
    return MmapedObjectMap.oidOfBytes bytes algo

def mapObject (oid : ObjectID) (algo : HashAlgorithm) : Except Panic (Option MappedObject) := do
  match ← lookUpObject self oid with
  | none => return none
  | some main =>
    match MapType.fromU32 (← u32AtOffset self.memory (← add self.metaOff (← mul main 4))) with
    | none => return none
    | some kind => return (← oidFromOffset self main algo).map fun oid => ⟨oid, kind⟩

def mapOid (oid : ObjectID) (algo : HashAlgorithm) : Except Panic (Option ObjectID) :=
  if algo = oid.algo then return some oid
  else do
    match ← lookUpObject self oid with
    | none => return none
    | some main => oidFromOffset self main algo

structure MmapedObjectMapIter where
  offset : Nat
  algos : List HashAlgorithm

def iter : MmapedObjectMapIter :=
  ⟨0, self.mainAlgo :: ([.sha1, .sha256].filter fun algo => (self.objFormats algo).isSome ∧ algo ≠ self.mainAlgo)⟩

/-- `filter_map` over the algorithms. -/
def oidsAt (offset : Nat) : List HashAlgorithm → Except Panic (List ObjectID)
  | [] => return []
  | algo :: algos => do
    let oid ← oidFromOffset self offset algo
    return oid.toList ++ (← oidsAt offset algos)

def MmapedObjectMapIter.next (iter : MmapedObjectMapIter) :
    Except Panic (Option (List ObjectID) × MmapedObjectMapIter) :=
  if iter.offset ≥ self.nitems then return (none, iter)
  else do
    let offset ← add iter.offset 1
    let v ← oidsAt self iter.offset iter.algos
    return (if v.length ≠ iter.algos.length then none else some v, { iter with offset := offset })

def nexts : Nat → MmapedObjectMapIter → Except Panic (List (Option (List ObjectID)))
  | 0, _ => return []
  | n + 1, iter => do
    let (item, iter) ← iter.next self
    return item :: (← nexts n iter)

def Returns {α : Type} (x : Except Panic α) : Prop := ∃ a, x = .ok a

structure CallsReturn (map : MmapedObjectMap) : Prop where
  mapOid : ∀ oid algo, Returns (mapOid map oid algo)
  mapObject : ∀ oid algo, Returns (mapObject map oid algo)
  iter : ∀ n, Returns (nexts map n (iter map))

structure Inside (memory : List UInt8) (nitems : Nat) (algo : HashAlgorithm) (params : ObjectFormatData) : Prop where
  fullOff : params.fullOff = params.dataOff + params.shortenedLen * nitems
  full_lt : algo.rawLen * nitems + params.fullOff + nitems * 4 < memory.length
  lt : algo.rawLen * nitems + params.fullOff + nitems * 4 < 2 ^ 64
  mapping : ∀ off, params.mappingOff = some off → off = algo.rawLen * nitems + params.fullOff

structure Valid (map : MmapedObjectMap) : Prop where
  inside : ∀ algo params, map.objFormats algo = some params → Inside map.memory map.nitems algo params
  meta_le : map.metaOff + map.nitems * 4 ≤ map.memory.length
  meta_lt : map.metaOff + map.nitems * 4 < 2 ^ 64

variable {self}

section New

variable {data : List UInt8} {nitems : Nat}

lemma readFormats_inside {left i offset offset' : Nat} {metaOff metaOff' : Option Nat}
    {formats formats' : HashAlgorithm → Option ObjectFormatData}
    (h : readFormats data nitems i offset metaOff formats left = .ok (offset', metaOff', formats'))
    (hformats : ∀ algo params, formats algo = some params → Inside data nitems algo params)
    (hmeta : ∀ off, metaOff = some off → off + nitems * 4 ≤ data.length ∧ off + nitems * 4 < 2 ^ 64) :
    (∀ algo params, formats' algo = some params → Inside data nitems algo params) ∧
      ∀ off, metaOff' = some off → off + nitems * 4 ≤ data.length ∧ off + nitems * 4 < 2 ^ 64 := by
  induction left generalizing i offset metaOff formats with
  | zero =>
    cases h
    exact ⟨hformats, hmeta⟩
  | succ left ih =>
    rw [readFormats] at h
    obtain ⟨⟨found, dataOff, shortenedLen, fullOff, off⟩, hread, h⟩ := ok_of_bind h
    obtain ⟨-, hfull, hoff, hlt, hbound⟩ := readFormat_inv hread
    refine ih h (fun algo params hparams => ?_) fun off' hoff' => ?_
    · by_cases hsame : algo = found
      · subst hsame hoff
        rw [Function.update_self] at hparams
        obtain rfl := Option.some.inj hparams
        refine ⟨hfull, hlt, hbound, fun off hmapping => ?_⟩
        dsimp only at hmapping
        split_ifs at hmapping
        exact (Option.some.inj hmapping).symm
      · rw [Function.update_of_ne hsame] at hparams
        exact hformats algo params hparams
    · by_cases hzero : i = 0
      · rw [if_pos hzero] at hoff'
        obtain rfl := Option.some.inj hoff'
        exact ⟨hlt.le, hbound⟩
      · rw [if_neg hzero] at hoff'
        exact hmeta off' hoff'

lemma newMmaped_valid {hashAlgo : HashAlgorithm} (h : newMmaped data hashAlgo = .ok self) : Valid self := by
  obtain ⟨offset, metaOff, formats, rfl, hread⟩ := newMmaped_ok h
  obtain ⟨hformats, hmeta⟩ := readFormats_inside hread (fun _ _ hnone => nomatch hnone) fun _ hnone => nomatch hnone
  exact ⟨hformats, (hmeta metaOff rfl).1, (hmeta metaOff rfl).2⟩

end New

lemma add_ok {a b : Nat} (h : a + b < 2 ^ 64) : add a b = .ok (a + b) := if_pos h

lemma mul_ok {a b : Nat} (h : a * b < 2 ^ 64) : mul a b = .ok (a * b) := if_pos h

lemma range_ok {data : List UInt8} {start len : Nat} (h : start + len ≤ data.length) :
    range data start (start + len) = .ok (slice data start len) := by
  rw [range, if_pos ⟨Nat.le_add_right _ _, h⟩, Nat.add_sub_cancel_left]

lemma u32AtOffset_ok {data : List UInt8} {offset : Nat} (h : offset + 4 ≤ data.length) (hlt : offset + 4 < 2 ^ 64) :
    u32AtOffset data offset = .ok (beAt data offset 4) := by
  rw [u32AtOffset, add_ok hlt]
  change (range data offset (offset + 4) >>= _) = _
  rw [range_ok h]
  rfl

lemma searchBase_ok {f : Nat → Except Panic Ordering} {g : Nat → Ordering} {n base size : Nat}
    (hf : ∀ i < n, f i = .ok (g i)) (hn : base + size ≤ n) :
    searchBase f base size = .ok (GitCore.searchBase g base size) := by
  induction size using Nat.strong_induction_on generalizing base with
  | _ size ih =>
    rw [searchBase, GitCore.searchBase]
    split_ifs with hsize
    · dsimp only
      rw [hf _ (by omega)]
      change searchBase f _ _ = _
      split_ifs
      · exact ih _ (by omega) (by omega)
      · exact ih _ (by omega) (by omega)
    · rfl

lemma binarySearchBy_ok {f : Nat → Except Panic Ordering} {g : Nat → Ordering} {n : Nat}
    (hf : ∀ i < n, f i = .ok (g i)) : binarySearchBy f n = .ok (GitCore.binarySearchBy g n) := by
  rw [binarySearchBy, GitCore.binarySearchBy]
  split_ifs with hzero
  · rfl
  · have hlt := searchBase_lt g 0 n (by omega)
    rw [searchBase_ok hf (by omega)]
    change (f _ >>= _) = _
    rw [hf _ (by omega)]
    rfl

lemma binarySearchSlice_ok {sl wanted : List UInt8} {n : Nat} (hsl : sl.length = wanted.length * n)
    (hlt : sl.length < 2 ^ 64) : binarySearchSlice sl wanted = .ok (Loose.binarySearchSlice sl wanted) ∧
      ∀ index, Loose.binarySearchSlice sl wanted = some index → index < n := by
  have hprobe : ∀ i < sl.length, (do
      let index ← sub i (← rem i wanted.length)
      let item ← range sl index (← add index wanted.length)
      return compare item wanted : Except Panic Ordering) =
        .ok (compare (slice sl (i - i % wanted.length) wanted.length) wanted) := fun i hi => by
    have hpos : 0 < wanted.length := Nat.pos_of_ne_zero fun hzero => by
      rw [hsl, hzero, Nat.zero_mul] at hi
      exact absurd hi (Nat.not_lt_zero i)
    have hdiv : i / wanted.length < n := Nat.div_lt_of_lt_mul (hsl ▸ hi)
    have hend : i - i % wanted.length + wanted.length ≤ sl.length := by
      calc i - i % wanted.length + wanted.length = wanted.length * (i / wanted.length + 1) := by
            rw [Nat.mul_add, Nat.mul_one]
            have := Nat.div_add_mod i wanted.length
            omega
        _ ≤ sl.length := hsl ▸ Nat.mul_le_mul_left _ hdiv
    rw [rem, if_neg hpos.ne']
    change (sub i (i % wanted.length) >>= _) = _
    rw [sub, if_pos (Nat.mod_le _ _)]
    change (add _ _ >>= fun b => range sl _ b >>= _) = _
    rw [add_ok (by omega)]
    change (range sl _ _ >>= _) = _
    rw [range_ok hend]
    rfl
  refine ⟨?_, fun index hindex => ?_⟩
  · rw [binarySearchSlice, Loose.binarySearchSlice, binarySearchBy_ok hprobe]
    cases hsearch : GitCore.binarySearchBy _ sl.length with
    | none => rfl
    | some offset =>
      have hoffset := (binarySearchBy_eq_some hsearch).1
      have hne : wanted.length ≠ 0 := fun hzero => by
        rw [hsl, hzero, Nat.zero_mul] at hoffset
        exact absurd hoffset (Nat.not_lt_zero offset)
      change (div offset wanted.length >>= _) = _
      rw [div, if_neg hne]
      rfl
  · obtain ⟨offset, hoffset, rfl⟩ := Option.map_eq_some_iff.mp hindex
    exact Nat.div_lt_of_lt_mul (hsl ▸ (binarySearchBy_eq_some hoffset).1)

lemma fullEntry_ok {algo : HashAlgorithm} {params : ObjectFormatData}
    (hin : Inside self.memory self.nitems algo params) {index : Nat} (hindex : index < self.nitems) :
    fullEntry self params index algo.rawLen =
      .ok (slice self.memory (params.fullOff + index * algo.rawLen) algo.rawLen) := by
  have hmul : index * algo.rawLen + algo.rawLen ≤ algo.rawLen * self.nitems := by
    rw [Nat.mul_comm algo.rawLen, ← Nat.succ_mul]
    exact Nat.mul_le_mul_right _ hindex
  have hlt := hin.lt
  have hfull := hin.full_lt
  rw [fullEntry, mul_ok (by omega)]
  change (add _ _ >>= fun oidOffset => add oidOffset _ >>= _) = _
  rw [add_ok (by omega)]
  change (add _ _ >>= _) = _
  rw [add_ok (by omega)]
  exact range_ok (by omega)

section Calls

variable (h : Valid self)

include h in
lemma oidFromOffset_ok {offset : Nat} (hoffset : offset < self.nitems) (algo : HashAlgorithm) :
    oidFromOffset self offset algo = .ok (self.oidFromOffset offset algo) := by
  rw [oidFromOffset, MmapedObjectMap.oidFromOffset]
  cases hparams : self.objFormats algo with
  | none => rfl
  | some params =>
    change (fullEntry self params offset algo.rawLen >>= _) = _
    rw [fullEntry_ok (h.inside algo params hparams) hoffset]
    rfl

include h in
lemma lookUpObject_ok {oid : ObjectID}
    (hshort : ∀ params, self.objFormats oid.algo = some params → params.shortenedLen ≤ oid.algo.rawLen) :
    lookUpObject self oid = .ok (self.lookUpObject oid) ∧ ∀ main, self.lookUpObject oid = some main → main < self.nitems := by
  rw [lookUpObject, MmapedObjectMap.lookUpObject]
  cases hparams : self.objFormats oid.algo with
  | none => exact ⟨rfl, fun _ hmain => absurd hmain.symm (Option.some_ne_none _)⟩
  | some params =>
    have hin := h.inside oid.algo params hparams
    have hle := hshort params hparams
    have hfull := hin.full_lt
    have hlt := hin.lt
    have hoff := hin.fullOff
    have hwanted : (oid.asSlice.take params.shortenedLen).length = params.shortenedLen := by
      rw [List.length_take, oid.length_asSlice, Nat.min_eq_left hle]
    have htable : (slice self.memory params.dataOff (params.shortenedLen * self.nitems)).length =
        (oid.asSlice.take params.shortenedLen).length * self.nitems := by
      rw [hwanted, slice, List.length_take, List.length_drop]
      omega
    obtain ⟨hsearch, hbound⟩ := binarySearchSlice_ok htable (by rw [htable, hwanted]; omega)
    have hslice : range oid.asSlice 0 params.shortenedLen = .ok (oid.asSlice.take params.shortenedLen) := by
      rw [range, if_pos ⟨Nat.zero_le _, by rw [oid.length_asSlice]; exact hle⟩]
      rfl
    rw [Option.bind_eq_bind, Option.bind_some, Option.bind_eq_bind]
    dsimp only
    rw [mul_ok (by omega)]
    change (add _ _ >>= fun stop => range self.memory _ stop >>= _) = _ ∧ _
    rw [add_ok (by omega)]
    change (range self.memory _ _ >>= _) = _ ∧ _
    rw [range_ok (by omega)]
    change (range oid.asSlice _ _ >>= _) = _ ∧ _
    rw [hslice]
    change (binarySearchSlice _ _ >>= _) = _ ∧ _
    rw [hsearch]
    cases hfound : Loose.binarySearchSlice (slice self.memory params.dataOff (params.shortenedLen * self.nitems))
      (oid.asSlice.take params.shortenedLen) with
    | none => exact ⟨rfl, fun _ hmain => absurd hmain.symm (Option.some_ne_none _)⟩
    | some index =>
      have hindex := hbound index hfound
      rw [Option.bind_some]
      cases hmapping : params.mappingOff with
      | none =>
        change (fullEntry self params index oid.algo.rawLen >>= _) = _ ∧ _
        rw [fullEntry_ok hin hindex]
        refine ⟨rfl, fun main hmain => ?_⟩
        change (if _ then none else some index) = some main at hmain
        split_ifs at hmain
        obtain rfl := Option.some.inj hmain
        exact hindex
      | some fromOff =>
        have hfrom := hin.mapping fromOff hmapping
        change (mul index 4 >>= fun m => add fromOff m >>= fun off => u32AtOffset self.memory off >>= _) = _ ∧ _
        rw [mul_ok (by omega)]
        change (add _ _ >>= fun off => u32AtOffset self.memory off >>= _) = _ ∧ _
        rw [add_ok (by omega)]
        change (u32AtOffset _ _ >>= _) = _ ∧ _
        rw [u32AtOffset_ok (by omega) (by omega)]
        dsimp only
        generalize beAt self.memory (fromOff + index * 4) 4 = mapped
        by_cases hge : mapped ≥ self.nitems
        · rw [if_pos hge]
          exact ⟨if_pos hge, fun _ hmain => absurd hmain.symm (Option.some_ne_none _)⟩
        · rw [if_neg hge]
          refine ⟨?_, fun main hmain => ?_⟩
          · change (if mapped ≥ self.nitems then _ else fullEntry self params mapped oid.algo.rawLen >>= _) = _
            rw [if_neg hge, fullEntry_ok hin (not_le.mp hge)]
            rfl
          · split_ifs at hmain
            obtain rfl := Option.some.inj hmain
            exact not_le.mp hge

include h in
lemma mapOid_ok (oid : ObjectID) (algo : HashAlgorithm)
    (hshort : ∀ params, self.objFormats oid.algo = some params → params.shortenedLen ≤ oid.algo.rawLen) :
    mapOid self oid algo = .ok (self.mapOid oid algo) := by
  obtain ⟨hlook, hbound⟩ := lookUpObject_ok h hshort
  rw [mapOid, MmapedObjectMap.mapOid]
  split_ifs with hsame
  · rfl
  · rw [hlook]
    cases hmain : self.lookUpObject oid with
    | none => rfl
    | some main => exact oidFromOffset_ok h (hbound main hmain) algo

include h in
lemma mapObject_ok (oid : ObjectID) (algo : HashAlgorithm)
    (hshort : ∀ params, self.objFormats oid.algo = some params → params.shortenedLen ≤ oid.algo.rawLen) :
    mapObject self oid algo = .ok (self.mapObject oid algo) := by
  obtain ⟨hlook, hbound⟩ := lookUpObject_ok h hshort
  rw [mapObject, MmapedObjectMap.mapObject, hlook]
  cases hmain : self.lookUpObject oid with
  | none => rfl
  | some main =>
    have hlt := hbound main hmain
    have hle := h.meta_le
    have hmeta := h.meta_lt
    change (mul main 4 >>= fun m => add self.metaOff m >>= fun off => u32AtOffset self.memory off >>= _) = _
    rw [mul_ok (by omega)]
    change (add _ _ >>= fun off => u32AtOffset self.memory off >>= _) = _
    rw [add_ok (by omega)]
    change (u32AtOffset _ _ >>= _) = _
    rw [u32AtOffset_ok (by omega) (by omega)]
    change (match MapType.fromU32 (beAt self.memory (self.metaOff + main * 4) 4) with
      | none => _
      | some kind => _) = _
    rw [Option.bind_eq_bind, Option.bind_some]
    cases MapType.fromU32 (beAt self.memory (self.metaOff + main * 4) 4) with
    | none => rfl
    | some kind =>
      change (oidFromOffset self main algo >>= _) = _
      rw [oidFromOffset_ok h hlt algo]
      cases self.oidFromOffset main algo <;> rfl

include h in
lemma oidsAt_ok {offset : Nat} (hoffset : offset < self.nitems) (algos : List HashAlgorithm) :
    oidsAt self offset algos = .ok (algos.filterMap fun algo => self.oidFromOffset offset algo) := by
  induction algos with
  | nil => rfl
  | cons algo algos ih =>
    rw [oidsAt, oidFromOffset_ok h hoffset algo, ih, List.filterMap_cons]
    cases self.oidFromOffset offset algo <;> rfl

include h in
lemma nexts_returns (n : Nat) (iter : MmapedObjectMapIter) : Returns (nexts self n iter) := by
  induction n generalizing iter with
  | zero => exact ⟨_, rfl⟩
  | succ n ih =>
    have hnext : ∃ item, iter.next self = .ok item := by
      rw [MmapedObjectMapIter.next]
      split_ifs with hend
      · exact ⟨_, rfl⟩
      · have hlt := h.meta_lt
        rw [add_ok (by omega)]
        change ∃ item, (oidsAt self iter.offset iter.algos >>= _) = _
        rw [oidsAt_ok h (not_le.mp hend)]
        exact ⟨_, rfl⟩
    obtain ⟨⟨item, iter'⟩, hnext⟩ := hnext
    obtain ⟨items, hitems⟩ := ih iter'
    refine ⟨item :: items, ?_⟩
    rw [nexts, hnext]
    change (nexts self n iter' >>= _) = _
    rw [hitems]
    rfl

end Calls

lemma lookUpObject_panics {oid : ObjectID} {params : ObjectFormatData} (hparams : self.objFormats oid.algo = some params)
    (hlong : oid.algo.rawLen < params.shortenedLen) : ¬Returns (lookUpObject self oid) := by
  rintro ⟨main, h⟩
  rw [lookUpObject, hparams] at h
  dsimp only at h
  obtain ⟨_, -, h⟩ := ok_of_bind h
  obtain ⟨_, -, h⟩ := ok_of_bind h
  obtain ⟨_, -, h⟩ := ok_of_bind h
  obtain ⟨_, hslice, -⟩ := ok_of_bind h
  rw [range, if_neg fun hin => ?_] at hslice
  · cases hslice
  · have := hin.2
    rw [oid.length_asSlice] at this
    omega

def emptyFile (shortenedLen : Nat) : List UInt8 :=
  [76, 77, 65, 80] ++ [1, 60, 0, 2, HashAlgorithm.sha1.formatId, shortenedLen, 0, 60, HashAlgorithm.sha256.formatId, 1,
    0, 60, 0, 60, 0, 0, 0, 0, 0].flatMap (beBytes 4)

end GitCore.Loose.Panics
