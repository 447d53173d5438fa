import GitCore.Index.Entry

/-!
# Writing and reading the index

The entries of `do_write_index` with the index entry offset table, and the functions of
`read-cache.c` that load them, one after the other or in blocks.
-/

namespace GitCore.Index

structure IndexEntryOffset where
  offset : Int
  nr : Nat
  deriving DecidableEq

def toInt (offset : Nat) : Int :=
  (offset : Int).bmod (2 ^ 32)

def CACHE_SIGNATURE : UInt32 := 0x44495243

def divRoundUp (n d : Nat) : Nat :=
  (n + d - 1) / d

/-- `CE_EXTENDED` is kept only where there are extended flags. -/
def reduceExtended (ce : CacheEntry) : CacheEntry :=
  let flags := ce.ceFlags &&& ~~~CE_EXTENDED
  { ce with ceFlags := if flags &&& CE_EXTENDED_FLAGS ≠ 0 then flags ||| CE_EXTENDED else flags }

/-- `ce_smudge_racily_clean_entry`, for the entries it finds racily clean. -/
def smudgeRacilyClean (racy : CacheEntry → Bool) (ce : CacheEntry) : CacheEntry :=
  if racy ce then { ce with ceStatData := { ce.ceStatData with size := 0 } } else ce

def isNullOid (ce : CacheEntry) : Prop :=
  ∀ b ∈ ce.oid, b = 0

instance decidableIsNullOid (ce : CacheEntry) : Decidable (isNullOid ce) :=
  inferInstanceAs (Decidable (∀ b ∈ ce.oid, b = 0))

/-- The loop of `do_write_index`: the bytes so far, of which `hashfile_total` is the number, and the
block that is written. -/
structure IndexWrite where
  out : List UInt8
  previousName : Option (List UInt8)
  nr : Nat
  offset : Nat
  ieot : List IndexEntryOffset

/-- The block is entered in the table, and nothing is in common with the previous entry. -/
def startBlock (w : IndexWrite) : IndexWrite :=
  { w with
    ieot := w.ieot ++ [⟨toInt w.offset, w.nr⟩]
    previousName := w.previousName.map (fun previous => previous.set 0 0)
    nr := 0
    offset := w.out.length }

/-- One entry of the loop. `ieotEntries` is the number of slots of a block; without a table it is
`none`. -/
def writeEntry (hashsz : Nat) (ieotEntries : Option Nat) (w : IndexWrite) (i : Nat) (ce : CacheEntry) : IndexWrite :=
  let w :=
    match ieotEntries with
    | none => w
    | some entries => if i ≠ 0 ∧ i % entries = 0 then startBlock w else w
  let (bytes, previousName) := ceWriteEntry hashsz ce w.previousName
  { w with out := w.out ++ bytes, previousName := previousName, nr := w.nr + 1 }

/-- The loop over the slots from `i` on; `none` after an error. -/
def writeEntries (hashsz : Nat) (racy : CacheEntry → Bool) (allowNullSha1 : Bool) (ieotEntries : Option Nat) :
    IndexWrite → Nat → List CacheEntry → Option IndexWrite
  | w, _, [] => some w
  | w, i, ce :: cache =>
    if ce.ceFlags &&& CE_REMOVE ≠ 0 then
      writeEntries hashsz racy allowNullSha1 ieotEntries w (i + 1) cache
    else
      let ce := smudgeRacilyClean racy ce
      if isNullOid ce ∧ allowNullSha1 = false then none
      else
        writeEntries hashsz racy allowNullSha1 ieotEntries (writeEntry hashsz ieotEntries w i ce) (i + 1) cache

def endBlock (w : IndexWrite) : List IndexEntryOffset :=
  if w.nr ≠ 0 then w.ieot ++ [⟨toInt w.offset, w.nr⟩] else w.ieot

def hdrVersion (version : Nat) (cache : List CacheEntry) : Nat :=
  if version = 3 ∨ version = 2 then
    if ∃ ce ∈ cache, ce.ceFlags &&& CE_EXTENDED_FLAGS ≠ 0 then 3 else 2
  else version

/-- `do_write_index` up to the extensions: the bytes and the offset table. A table is written for
more than one block. -/
def doWriteIndex (hashsz : Nat) (racy : CacheEntry → Bool) (allowNullSha1 : Bool) (version ieotBlocks : Nat)
    (cache : List CacheEntry) : Option (List UInt8 × List IndexEntryOffset) :=
  let cache := cache.map reduceExtended
  let removed := cache.countP (fun ce => ce.ceFlags &&& CE_REMOVE ≠ 0)
  let version := hdrVersion version cache
  let hdr := putBe32 CACHE_SIGNATURE ++ (putBe32 (UInt32.ofNat version) ++
    putBe32 (UInt32.ofNat (cache.length - removed)))
  let ieotEntries := if 1 < ieotBlocks then some (divRoundUp cache.length ieotBlocks) else none
  let previousName := if version = 4 then some [] else none
  match writeEntries hashsz racy allowNullSha1 ieotEntries ⟨hdr, previousName, 0, hdr.length, []⟩ 0 cache with
  | none => none
  | some w => some (w.out, if 1 < ieotBlocks then endBlock w else [])

def loadCacheEntryBlock (hashsz version : Nat) (mmap : List UInt8) :
    Nat → Int → Option CacheEntry → Option (List CacheEntry × Nat)
  | 0, _, _ => some ([], 0)
  | nr + 1, srcOffset, previousCe =>
    if srcOffset < 0 then none
    else
      match createFromDisk hashsz version (mmap.drop srcOffset.toNat) previousCe with
      | none => none
      | some (ce, consumed) =>
        match loadCacheEntryBlock hashsz version mmap nr (srcOffset + consumed) (some ce) with
        | none => none
        | some (entries, rest) => some (ce :: entries, consumed + rest)

/-- The header of `do_read_index`: the version and the number of entries. -/
def readHdr (mmap : List UInt8) : Option (Nat × Nat) :=
  match getBe32 mmap 0, getBe32 mmap 4, getBe32 mmap 8 with
  | some signature, some version, some entries =>
    if signature ≠ CACHE_SIGNATURE ∨ version.toNat < 2 ∨ 4 < version.toNat then none
    else some (version.toNat, entries.toNat)
  | _, _, _ => none

def loadAllCacheEntries (hashsz : Nat) (mmap : List UInt8) : Option (List CacheEntry × Nat) :=
  match readHdr mmap with
  | none => none
  | some (version, cacheNr) => loadCacheEntryBlock hashsz version mmap cacheNr 12 none

def loadCacheEntriesThread (hashsz version : Nat) (mmap : List UInt8) :
    Nat → List IndexEntryOffset → Option (List (CacheEntry × Nat))
  | _, [] => some []
  | offset, block :: blocks =>
    match loadCacheEntryBlock hashsz version mmap block.nr block.offset none with
    | none => none
    | some (entries, _) =>
      match loadCacheEntriesThread hashsz version mmap (offset + block.nr) blocks with
      | none => none
      | some rest => some (entries.zipIdx offset ++ rest)

/-- The threads of `load_cache_entries_threaded`, each with the next blocks. -/
def loadThreads (hashsz version : Nat) (mmap : List UInt8) :
    Nat → Nat → Nat → List IndexEntryOffset → Option (List (CacheEntry × Nat))
  | 0, _, _, _ => some []
  | nrThreads + 1, ieotBlocks, offset, ieot =>
    let blocks := min ieotBlocks ieot.length
    match loadCacheEntriesThread hashsz version mmap offset (ieot.take blocks) with
    | none => none
    | some entries =>
      let next := offset + ((ieot.take blocks).map IndexEntryOffset.nr).sum
      match loadThreads hashsz version mmap nrThreads blocks next (ieot.drop blocks) with
      | none => none
      | some rest => some (entries ++ rest)

def loadCacheEntriesThreaded (hashsz : Nat) (mmap : List UInt8) (nrThreads : Nat) (ieot : List IndexEntryOffset) :
    Option (List (CacheEntry × Nat)) :=
  match readHdr mmap with
  | none => none
  | some (version, _) =>
    let nrThreads := min nrThreads ieot.length
    loadThreads hashsz version mmap nrThreads (divRoundUp ieot.length nrThreads) 0 ieot

end GitCore.Index

/-!
# The index is read back

The entries that are not removed are read back in their order, one after the other or in the blocks
of the offset table by any number of threads.
-/

namespace GitCore.Index

section

variable {hashsz version : Nat}

lemma loadCacheEntryBlock_append {mmap : List UInt8} {nr nr' : Nat} {start : Int} {previousCe : Option CacheEntry}
    {entries entries' : List CacheEntry} {consumed consumed' : Nat}
    (h : loadCacheEntryBlock hashsz version mmap nr start previousCe = some (entries, consumed))
    (h' : loadCacheEntryBlock hashsz version mmap nr' (start + consumed) (entries.getLast?.or previousCe) =
      some (entries', consumed')) :
    loadCacheEntryBlock hashsz version mmap (nr + nr') start previousCe =
      some (entries ++ entries', consumed + consumed') := by
  induction nr generalizing start previousCe entries consumed with
  | zero =>
    obtain ⟨rfl, rfl⟩ := Prod.mk.inj (Option.some.inj h)
    simpa using h'
  | succ nr ih =>
    rw [Nat.succ_add]
    rw [loadCacheEntryBlock] at h ⊢
    split_ifs at h ⊢
    split at h
    · cases h
    · rename_i ce first hce
      split at h
      · cases h
      · rename_i rest more hrest
        obtain ⟨rfl, rfl⟩ := Prod.mk.inj (Option.some.inj h)
        rw [ih hrest ?_]
        · simp [Nat.add_assoc]
        · have hlast : (rest.getLast?.or (some ce)) = ((ce :: rest).getLast?.or previousCe) := by
            rw [List.getLast?_cons]
            cases rest.getLast? <;> rfl
          rw [hlast, ← h']
          push_cast
          rw [Int.add_assoc]

def Reads (hashsz version : Nat) (bytes : List UInt8) (entries : List CacheEntry) : Prop :=
  ∀ before after, loadCacheEntryBlock hashsz version (before ++ (bytes ++ after)) entries.length before.length none =
    some (entries, bytes.length)

lemma Reads.nil : Reads hashsz version [] [] := fun _ _ => rfl

lemma Reads.write {bytes : List UInt8} {entries : List CacheEntry} {previousName : Option (List UInt8)}
    {ce : CacheEntry} (h : Reads hashsz version bytes entries) (hce : WellFormedEntry hashsz ce)
    (hversion : Compressed version previousName) (hprevious : PreviousAgrees previousName entries.getLast?)
    (hlen : ∀ previous, previousName = some previous → previous.length < 2 ^ 31) :
    Reads hashsz version (bytes ++ (ceWriteEntry hashsz ce previousName).1) (entries ++ [ce.onDisk]) := by
  intro before after
  set written := (ceWriteEntry hashsz ce previousName).1 with hwritten
  have hfirst := h before (written ++ after)
  have hlast : loadCacheEntryBlock hashsz version (before ++ (bytes ++ (written ++ after))) 1
      ((before.length : Int) + bytes.length) (entries.getLast?.or none) = some ([ce.onDisk], written.length) := by
    have hdrop : (before ++ (bytes ++ (written ++ after))).drop ((before.length : Int) + bytes.length).toNat =
        written ++ after := by
      have hpos : ((before.length : Int) + bytes.length).toNat = (before ++ bytes).length := by
        rw [List.length_append]
        omega
      rw [hpos, ← List.append_assoc, List.drop_left]
    rw [loadCacheEntryBlock, if_neg (by omega), hdrop, Option.or_none,
      createFromDisk_write hce hversion hprevious hlen after]
    simp only [loadCacheEntryBlock, hwritten, Nat.add_zero]
  have hboth := loadCacheEntryBlock_append hfirst hlast
  simp only [List.append_assoc, List.length_append, List.length_singleton]
  exact hboth

def offsetTable : Nat → List (List UInt8 × List CacheEntry) → List IndexEntryOffset
  | _, [] => []
  | start, (bytes, entries) :: blocks => ⟨toInt start, entries.length⟩ :: offsetTable (start + bytes.length) blocks

def blockBytes (blocks : List (List UInt8 × List CacheEntry)) : List UInt8 :=
  (blocks.map Prod.fst).flatten

def blockEntries (blocks : List (List UInt8 × List CacheEntry)) : List CacheEntry :=
  (blocks.map Prod.snd).flatten

lemma offsetTable_snoc (start : Nat) (blocks : List (List UInt8 × List CacheEntry)) (bytes : List UInt8)
    (entries : List CacheEntry) : offsetTable start (blocks ++ [(bytes, entries)]) =
      offsetTable start blocks ++ [⟨toInt (start + (blockBytes blocks).length), entries.length⟩] := by
  induction blocks generalizing start with
  | nil => simp [offsetTable, blockBytes]
  | cons block blocks ih =>
    obtain ⟨first, firstEntries⟩ := block
    simp only [List.cons_append, offsetTable, ih, blockBytes, List.map_cons, List.flatten_cons, List.length_append,
      Nat.add_assoc]

/-- The invariant of the loop of `do_write_index` behind the header: all entries can be read one
after the other, and those of each block from its offset. -/
structure WriteInv (hashsz version : Nat) (hdr : List UInt8) (entries : List CacheEntry) (w : IndexWrite) :
    Prop where
  compressed : Compressed version w.previousName
  namelen : ∀ previous, w.previousName = some previous → previous.length < 2 ^ 31
  previous : PreviousAgrees w.previousName entries.getLast?
  body : ∃ body, w.out = hdr ++ body ∧ Reads hashsz version body entries
  blocks : ∃ closed bytes current, w.out = hdr ++ (blockBytes closed ++ bytes) ∧
    entries = blockEntries closed ++ current ∧ current.length = w.nr ∧
    w.offset = hdr.length + (blockBytes closed).length ∧ w.ieot = offsetTable hdr.length closed ∧
    (∀ block ∈ closed, Reads hashsz version block.1 block.2) ∧ Reads hashsz version bytes current ∧
    PreviousAgrees w.previousName current.getLast?

variable {hdr : List UInt8} {entries : List CacheEntry} {w : IndexWrite}

lemma PreviousAgrees.blank {previousName : Option (List UInt8)} {previousCe : Option CacheEntry}
    (h : PreviousAgrees previousName previousCe) :
    PreviousAgrees (previousName.map (fun previous => previous.set 0 0)) previousCe ∧
      PreviousAgrees (previousName.map (fun previous => previous.set 0 0)) none := by
  have hset : ∀ previous : List UInt8, previous.set 0 0 = [] ∨ (previous.set 0 0).head? = some 0 := by
    intro previous
    cases previous <;> simp
  constructor
  · intro previous hprevious
    obtain ⟨old, hold, rfl⟩ := Option.map_eq_some_iff.mp hprevious
    have hagrees := h old hold
    cases previousCe with
    | none => exact hset old
    | some ce =>
      obtain ⟨hlength, -⟩ := hagrees
      refine ⟨by rw [List.length_set, hlength], ?_⟩
      obtain hnil | hhead := hset old
      · left
        have hempty : ce.name.length = 0 := by rw [← hlength, ← List.length_set, hnil, List.length_nil]
        rw [hnil, List.length_eq_zero_iff.mp hempty]
      · exact .inr hhead
  · intro previous hprevious
    obtain ⟨old, -, rfl⟩ := Option.map_eq_some_iff.mp hprevious
    exact hset old

lemma WriteInv.startBlock (h : WriteInv hashsz version hdr entries w) :
    WriteInv hashsz version hdr entries (startBlock w) := by
  obtain ⟨closed, bytes, current, hout, hentries, hnr, hoffset, hieot, hclosed, hreads, -⟩ := h.blocks
  refine ⟨?_, fun previous hprevious => ?_, h.previous.blank.1, h.body, ?_⟩
  · unfold Compressed GitCore.Index.startBlock
    rw [Option.isSome_map]
    exact h.compressed
  · obtain ⟨old, hold, rfl⟩ := Option.map_eq_some_iff.mp hprevious
    rw [List.length_set]
    exact h.namelen old hold
  · refine ⟨closed ++ [(bytes, current)], [], [], ?_, ?_, rfl, ?_, ?_, ?_, Reads.nil, h.previous.blank.2⟩
    · simp [GitCore.Index.startBlock, hout, blockBytes]
    · simp [hentries, blockEntries]
    · simp [GitCore.Index.startBlock, hout, blockBytes]
    · simp only [GitCore.Index.startBlock, hieot, offsetTable_snoc, hoffset, hnr]
    · intro block hblock
      obtain hblock | hblock := List.mem_append.mp hblock
      · exact hclosed block hblock
      · rw [List.mem_singleton.mp hblock]
        exact hreads

lemma WriteInv.write (h : WriteInv hashsz version hdr entries w) {ce : CacheEntry} (hce : WellFormedEntry hashsz ce) :
    WriteInv hashsz version hdr (entries ++ [ce.onDisk])
      { w with
        out := w.out ++ (ceWriteEntry hashsz ce w.previousName).1
        previousName := (ceWriteEntry hashsz ce w.previousName).2
        nr := w.nr + 1 } := by
  obtain ⟨body, hbody, hreadsBody⟩ := h.body
  obtain ⟨closed, bytes, current, hout, hentries, hnr, hoffset, hieot, hclosed, hreads, hprevious⟩ := h.blocks
  have hname : ∀ previous, (ceWriteEntry hashsz ce w.previousName).2 = some previous → previous = ce.name := by
    intro previous hnext
    cases hprev : w.previousName with
    | none => simp [hprev, ceWriteEntry] at hnext
    | some old =>
      rw [hprev, ceWriteEntry_name] at hnext
      exact (Option.some.inj hnext).symm
  have hagrees : PreviousAgrees (ceWriteEntry hashsz ce w.previousName).2 (some ce.onDisk) := by
    intro previous hnext
    rw [hname previous hnext]
    exact ⟨rfl, .inl rfl⟩
  refine ⟨ceWriteEntry_compressed h.compressed, fun previous hnext => ?_, ?_, ?_, ?_⟩
  · rw [hname previous hnext]
    exact hce.namelen
  · rw [List.getLast?_concat]
    exact hagrees
  · refine ⟨body ++ (ceWriteEntry hashsz ce w.previousName).1, by rw [hbody, List.append_assoc], ?_⟩
    exact hreadsBody.write hce h.compressed h.previous h.namelen
  · refine ⟨closed, bytes ++ (ceWriteEntry hashsz ce w.previousName).1, current ++ [ce.onDisk], ?_, ?_, ?_, hoffset,
      hieot, hclosed, hreads.write hce h.compressed hprevious h.namelen, ?_⟩
    · simp only [hout, List.append_assoc]
    · rw [hentries, List.append_assoc]
    · rw [List.length_append, hnr, List.length_singleton]
    · rw [List.getLast?_concat]
      exact hagrees

lemma WriteInv.writeEntry (h : WriteInv hashsz version hdr entries w) {ce : CacheEntry}
    (hce : WellFormedEntry hashsz ce) (ieotEntries : Option Nat) (i : Nat) :
    WriteInv hashsz version hdr (entries ++ [ce.onDisk]) (writeEntry hashsz ieotEntries w i ce) := by
  unfold GitCore.Index.writeEntry
  cases ieotEntries with
  | none => exact h.write hce
  | some slots =>
    dsimp only
    split_ifs
    · exact h.startBlock.write hce
    · exact h.write hce

def storedEntries (racy : CacheEntry → Bool) (cache : List CacheEntry) : List CacheEntry :=
  (cache.filter (fun ce => ce.ceFlags &&& CE_REMOVE = 0)).map (fun ce => (smudgeRacilyClean racy ce).onDisk)

lemma WriteInv.writeEntries {racy : CacheEntry → Bool} {allowNullSha1 : Bool} {ieotEntries : Option Nat} {i : Nat}
    {cache : List CacheEntry} {w' : IndexWrite} (h : WriteInv hashsz version hdr entries w)
    (hcache : ∀ ce ∈ cache, WellFormedEntry hashsz (smudgeRacilyClean racy ce))
    (hrun : writeEntries hashsz racy allowNullSha1 ieotEntries w i cache = some w') :
    WriteInv hashsz version hdr (entries ++ storedEntries racy cache) w' := by
  induction cache generalizing w i entries with
  | nil =>
    obtain rfl := Option.some.inj hrun
    simpa [storedEntries] using h
  | cons ce cache ih =>
    have hrest : ∀ ce ∈ cache, WellFormedEntry hashsz (smudgeRacilyClean racy ce) :=
      fun d hd => hcache d (List.mem_cons_of_mem _ hd)
    rw [GitCore.Index.writeEntries] at hrun
    dsimp only at hrun
    split_ifs at hrun with hremove
    · have := ih h hrest hrun
      rwa [storedEntries, List.filter_cons_of_neg (by simpa using hremove)]
    · have := ih (h.writeEntry (hcache ce (List.mem_cons_self ..)) ieotEntries i) hrest hrun
      rw [storedEntries, List.filter_cons_of_pos (by simpa using hremove)]
      simpa [storedEntries] using this

lemma toInt_of_lt {offset : Nat} (h : offset < 2 ^ 31) : toInt offset = offset := by
  unfold toInt
  rw [Int.bmod_eq_of_le_mul_two] <;> push_cast <;> omega

lemma offsetTable_read (blocks : List (List UInt8 × List CacheEntry)) (before after : List UInt8)
    (hsize : (before ++ blockBytes blocks).length < 2 ^ 31)
    (hblocks : ∀ block ∈ blocks, Reads hashsz version block.1 block.2) (offset : Nat) :
    loadCacheEntriesThread hashsz version (before ++ (blockBytes blocks ++ after)) offset
      (offsetTable before.length blocks) = some ((blockEntries blocks).zipIdx offset) := by
  induction blocks generalizing before offset with
  | nil => rfl
  | cons block blocks ih =>
    obtain ⟨bytes, entries⟩ := block
    have hbytes : blockBytes ((bytes, entries) :: blocks) = bytes ++ blockBytes blocks := rfl
    have hentries : blockEntries ((bytes, entries) :: blocks) = entries ++ blockEntries blocks := rfl
    rw [hbytes] at hsize ⊢
    have hstart : before.length < 2 ^ 31 := by
      rw [List.length_append] at hsize
      omega
    have hfirst := hblocks (bytes, entries) (List.mem_cons_self ..) before (blockBytes blocks ++ after)
    have hrest := ih (before ++ bytes) (by rwa [List.append_assoc])
      (fun block hblock => hblocks block (List.mem_cons_of_mem _ hblock)) (offset + entries.length)
    rw [List.append_assoc, List.length_append] at hrest
    simp only [offsetTable, loadCacheEntriesThread, toInt_of_lt hstart, List.append_assoc, hfirst, hrest, hentries,
      List.zipIdx_append]

lemma loadCacheEntriesThread_append (mmap : List UInt8) (offset : Nat) (blocks blocks' : List IndexEntryOffset) :
    loadCacheEntriesThread hashsz version mmap offset (blocks ++ blocks') =
      match loadCacheEntriesThread hashsz version mmap offset blocks with
      | none => none
      | some entries =>
        match loadCacheEntriesThread hashsz version mmap (offset + (blocks.map IndexEntryOffset.nr).sum) blocks' with
        | none => none
        | some rest => some (entries ++ rest) := by
  induction blocks generalizing offset with
  | nil =>
    simp only [List.nil_append, loadCacheEntriesThread, List.map_nil, List.sum_nil, Nat.add_zero]
    cases loadCacheEntriesThread hashsz version mmap offset blocks' <;> rfl
  | cons block blocks ih =>
    simp only [List.cons_append, loadCacheEntriesThread, ih, List.map_cons, List.sum_cons, Nat.add_assoc]
    cases loadCacheEntryBlock hashsz version mmap block.nr block.offset none with
    | none => rfl
    | some read =>
      cases loadCacheEntriesThread hashsz version mmap (offset + block.nr) blocks with
      | none => rfl
      | some entries =>
        dsimp only
        cases loadCacheEntriesThread hashsz version mmap
            (offset + (block.nr + (blocks.map IndexEntryOffset.nr).sum)) blocks' with
        | none => rfl
        | some rest => simp

lemma loadThreads_eq (mmap : List UInt8) (nrThreads ieotBlocks offset : Nat) (ieot : List IndexEntryOffset)
    (henough : ieot.length ≤ nrThreads * ieotBlocks) :
    loadThreads hashsz version mmap nrThreads ieotBlocks offset ieot =
      loadCacheEntriesThread hashsz version mmap offset ieot := by
  induction nrThreads generalizing ieotBlocks offset ieot with
  | zero =>
    obtain rfl : ieot = [] := List.length_eq_zero_iff.mp (by omega)
    rfl
  | succ nrThreads ih =>
    rw [loadThreads]
    have hleft : (ieot.drop (min ieotBlocks ieot.length)).length ≤ nrThreads * min ieotBlocks ieot.length := by
      rw [List.length_drop]
      obtain hle | hlt := le_total ieotBlocks ieot.length
      · rw [min_eq_left hle]
        rw [Nat.succ_mul] at henough
        omega
      · rw [min_eq_right hlt]
        omega
    simp only [ih _ _ _ hleft]
    have := @loadCacheEntriesThread_append hashsz version mmap offset
      (ieot.take (min ieotBlocks ieot.length)) (ieot.drop (min ieotBlocks ieot.length))
    rw [List.take_append_drop] at this
    exact this.symm

lemma le_mul_divRoundUp (n : Nat) {d : Nat} (h : 0 < d) : n ≤ d * divRoundUp n d := by
  unfold divRoundUp
  have hdiv := Nat.div_add_mod (n + d - 1) d
  have hmod := Nat.mod_lt (n + d - 1) h
  omega

lemma WriteInv.table (h : WriteInv hashsz version hdr entries w) :
    ∃ blocks, w.out = hdr ++ blockBytes blocks ∧ entries = blockEntries blocks ∧
      (∀ block ∈ blocks, Reads hashsz version block.1 block.2) ∧ endBlock w = offsetTable hdr.length blocks := by
  obtain ⟨closed, bytes, current, hout, hentries, hnr, hoffset, hieot, hclosed, hreads, -⟩ := h.blocks
  unfold endBlock
  by_cases hempty : w.nr = 0
  · rw [if_neg (by simpa using hempty)]
    obtain rfl : current = [] := List.length_eq_zero_iff.mp (hnr.trans hempty)
    have hbytes : bytes = [] := by
      have := hreads [] []
      rw [List.length_nil, loadCacheEntryBlock, Option.some_inj, Prod.mk.injEq] at this
      exact List.length_eq_zero_iff.mp this.2.symm
    refine ⟨closed, ?_, by rw [hentries, List.append_nil], hclosed, hieot⟩
    rw [hout, hbytes, List.append_nil]
  · rw [if_pos hempty]
    refine ⟨closed ++ [(bytes, current)], ?_, ?_, fun block hblock => ?_, ?_⟩
    · simp [hout, blockBytes]
    · simp [hentries, blockEntries]
    · obtain hblock | hblock := List.mem_append.mp hblock
      · exact hclosed block hblock
      · rw [List.mem_singleton.mp hblock]
        exact hreads
    · rw [hieot, hoffset, offsetTable_snoc, hnr]

end

lemma or_and_distrib (a b mask : UInt32) : (a ||| b) &&& mask = a &&& mask ||| b &&& mask := by
  apply UInt32.eq_of_toBitVec_eq
  simp only [UInt32.toBitVec_and, UInt32.toBitVec_or, BitVec.and_or_distrib_right]

lemma reduceExtended_and (ce : CacheEntry) {mask : UInt32} (hmask : ~~~CE_EXTENDED &&& mask = mask)
    (hdisjoint : CE_EXTENDED &&& mask = 0) : (reduceExtended ce).ceFlags &&& mask = ce.ceFlags &&& mask := by
  unfold reduceExtended
  dsimp only
  split_ifs
  · rw [or_and_distrib, hdisjoint, UInt32.or_zero, UInt32.and_assoc, hmask]
  · rw [UInt32.and_assoc, hmask]

lemma reduceExtended_extended (ce : CacheEntry) :
    (reduceExtended ce).ceFlags &&& CE_EXTENDED ≠ 0 ↔ (reduceExtended ce).ceFlags &&& CE_EXTENDED_FLAGS ≠ 0 := by
  have hclear : ce.ceFlags &&& ~~~CE_EXTENDED &&& CE_EXTENDED = 0 := by
    rw [UInt32.and_assoc, UInt32.not_and_self, UInt32.and_zero]
  have hdisjoint : CE_EXTENDED &&& CE_EXTENDED_FLAGS = 0 := by decide
  unfold reduceExtended
  dsimp only
  split_ifs with hext
  · have hset : (ce.ceFlags &&& ~~~CE_EXTENDED ||| CE_EXTENDED) &&& CE_EXTENDED ≠ 0 := by
      rw [or_and_distrib, hclear, UInt32.and_self, UInt32.zero_or]
      decide
    have hkeep : (ce.ceFlags &&& ~~~CE_EXTENDED ||| CE_EXTENDED) &&& CE_EXTENDED_FLAGS ≠ 0 := by
      rw [or_and_distrib, hdisjoint, UInt32.or_zero]
      exact hext
    exact iff_of_true hset hkeep
  · exact iff_of_false (by rw [hclear]; simp) hext

lemma wellFormed_written {hashsz : Nat} {ce : CacheEntry} (racy : CacheEntry → Bool) (h : StorableEntry hashsz ce) :
    WellFormedEntry hashsz (smudgeRacilyClean racy (reduceExtended ce)) := by
  have hext := reduceExtended_extended ce
  unfold smudgeRacilyClean
  split_ifs
  · exact ⟨⟨h.oid, h.name, h.namelen⟩, hext⟩
  · exact ⟨⟨h.oid, h.name, h.namelen⟩, hext⟩

lemma length_storedEntries (racy : CacheEntry → Bool) (cache : List CacheEntry) :
    (storedEntries racy cache).length = cache.length - cache.countP (fun ce => ce.ceFlags &&& CE_REMOVE ≠ 0) := by
  have hsum := List.length_eq_countP_add_countP (l := cache) (fun ce => decide (ce.ceFlags &&& CE_REMOVE ≠ 0))
  have hkept : cache.countP (fun ce => decide ¬ decide (ce.ceFlags &&& CE_REMOVE ≠ 0) = true) =
      cache.countP (fun ce => decide (ce.ceFlags &&& CE_REMOVE = 0)) := by
    simp
  rw [storedEntries, List.length_map, ← List.countP_eq_length_filter]
  omega

lemma readHdr_spec {version : Nat} (hversion : 2 ≤ version ∧ version ≤ 4) {entries : Nat} (hentries : entries < 2 ^ 32)
    (rest : List UInt8) :
    readHdr (putBe32 CACHE_SIGNATURE ++ (putBe32 (UInt32.ofNat version) ++
      (putBe32 (UInt32.ofNat entries) ++ rest))) = some (version, entries) := by
  have hv : (UInt32.ofNat version).toNat = version := by
    rw [UInt32.toNat_ofNat']
    omega
  have he : (UInt32.ofNat entries).toNat = entries := by
    rw [UInt32.toNat_ofNat']
    omega
  simp only [readHdr, getBe32_put, getBe32_skip, hv, he]
  rw [if_neg]
  simp only [ne_eq, not_true_eq_false, false_or]
  omega

lemma hdrVersion_mem {version : Nat} (h : 2 ≤ version ∧ version ≤ 4) (cache : List CacheEntry) :
    2 ≤ hdrVersion version cache ∧ hdrVersion version cache ≤ 4 := by
  unfold hdrVersion
  split_ifs <;> omega

/-- The flags that say something about the entry on disk; `CE_EXTENDED` follows from them. -/
def keptFlags : UInt32 := CE_STAGEMASK ||| CE_VALID ||| CE_EXTENDED_FLAGS

/-- The entry `read` is what the index entry `ce` is on disk. -/
structure ReadBack (racy : CacheEntry → Bool) (ce read : CacheEntry) : Prop where
  name : read.name = ce.name
  mode : read.ceMode = ce.ceMode
  oid : read.oid = ce.oid
  statData : read.ceStatData = (smudgeRacilyClean racy (reduceExtended ce)).ceStatData
  flags : read.ceFlags &&& keptFlags = ce.ceFlags &&& keptFlags
  stored : read.ceFlags &&& onDiskFlags = read.ceFlags
  extended : read.ceFlags &&& CE_EXTENDED ≠ 0 ↔ read.ceFlags &&& CE_EXTENDED_FLAGS ≠ 0

lemma readBack_onDisk (racy : CacheEntry → Bool) (ce : CacheEntry) :
    ReadBack racy ce (smudgeRacilyClean racy (reduceExtended ce)).onDisk := by
  have hce : smudgeRacilyClean racy (reduceExtended ce) =
      { ce with
        ceStatData := (smudgeRacilyClean racy (reduceExtended ce)).ceStatData
        ceFlags := (reduceExtended ce).ceFlags } := by
    unfold smudgeRacilyClean
    split_ifs <;> rfl
  rw [hce]
  refine ⟨rfl, rfl, rfl, rfl, ?_, ?_, ?_⟩
  · change (reduceExtended ce).ceFlags &&& onDiskFlags &&& keptFlags = _
    rw [UInt32.and_assoc, show onDiskFlags &&& keptFlags = keptFlags by decide]
    exact reduceExtended_and ce (by decide) (by decide)
  · change (reduceExtended ce).ceFlags &&& onDiskFlags &&& onDiskFlags = _
    rw [UInt32.and_assoc, UInt32.and_self]
    rfl
  · change (reduceExtended ce).ceFlags &&& onDiskFlags &&& CE_EXTENDED ≠ 0 ↔
      (reduceExtended ce).ceFlags &&& onDiskFlags &&& CE_EXTENDED_FLAGS ≠ 0
    rw [UInt32.and_assoc, UInt32.and_assoc, show onDiskFlags &&& CE_EXTENDED = CE_EXTENDED by decide,
      show onDiskFlags &&& CE_EXTENDED_FLAGS = CE_EXTENDED_FLAGS by decide]
    exact reduceExtended_extended ce

lemma storedEntries_readBack (racy : CacheEntry → Bool) (cache : List CacheEntry) :
    List.Forall₂ (ReadBack racy) (cache.filter (fun ce => ce.ceFlags &&& CE_REMOVE = 0))
      (storedEntries racy (cache.map reduceExtended)) := by
  have hremove : ∀ ce, (reduceExtended ce).ceFlags &&& CE_REMOVE = ce.ceFlags &&& CE_REMOVE :=
    fun ce => reduceExtended_and ce (by decide) (by decide)
  rw [storedEntries, List.filter_map, List.map_map, List.forall₂_map_right_iff]
  have hfilter : cache.filter ((fun ce => decide (ce.ceFlags &&& CE_REMOVE = 0)) ∘ reduceExtended) =
      cache.filter (fun ce => ce.ceFlags &&& CE_REMOVE = 0) :=
    List.filter_congr fun ce _ => by simp [hremove]
  rw [hfilter, List.forall₂_same]
  exact fun ce _ => readBack_onDisk racy ce

theorem doWriteIndex_stored {hashsz : Nat} {racy : CacheEntry → Bool} {allowNullSha1 : Bool} {version ieotBlocks : Nat}
    {cache : List CacheEntry} {bytes : List UInt8} {ieot : List IndexEntryOffset}
    (hversion : 2 ≤ version ∧ version ≤ 4) (hcache : ∀ ce ∈ cache, StorableEntry hashsz ce)
    (hnr : cache.length < 2 ^ 31)
    (hwrite : doWriteIndex hashsz racy allowNullSha1 version ieotBlocks cache = some (bytes, ieot))
    (after : List UInt8) :
    loadAllCacheEntries hashsz (bytes ++ after) =
        some (storedEntries racy (cache.map reduceExtended), bytes.length - 12) ∧
      (1 < ieotBlocks → bytes.length < 2 ^ 31 → ∀ nrThreads, 0 < nrThreads →
        loadCacheEntriesThreaded hashsz (bytes ++ after) nrThreads ieot =
          some ((storedEntries racy (cache.map reduceExtended)).zipIdx)) := by
  set reduced := cache.map reduceExtended with hreduced
  set version' := hdrVersion version reduced with hversion'
  set count := reduced.length - reduced.countP (fun ce => ce.ceFlags &&& CE_REMOVE ≠ 0) with hcount
  set hdr := putBe32 CACHE_SIGNATURE ++ (putBe32 (UInt32.ofNat version') ++ putBe32 (UInt32.ofNat count)) with hhdr
  have hlenHdr : hdr.length = 12 := rfl
  have hstored : (storedEntries racy reduced).length = count := length_storedEntries racy reduced
  have hread : ∀ rest, readHdr (hdr ++ rest) = some (version', count) := by
    intro rest
    have hsmall : count < 2 ^ 32 := by
      have : reduced.length = cache.length := List.length_map ..
      omega
    rw [hhdr, List.append_assoc, List.append_assoc]
    exact readHdr_spec (hdrVersion_mem hversion reduced) hsmall rest
  unfold doWriteIndex at hwrite
  simp only [← hreduced, ← hversion', ← hcount, ← hhdr] at hwrite
  split at hwrite
  · cases hwrite
  · rename_i w hrun
    obtain ⟨rfl, rfl⟩ := Prod.mk.inj (Option.some.inj hwrite)
    have hstart : WriteInv hashsz version' hdr [] ⟨hdr, if version' = 4 then some [] else none, 0, hdr.length, []⟩ := by
      have hnil : ∀ previous, (if version' = 4 then some [] else none) = some previous → previous = ([] : List UInt8) := by
        intro previous hp
        split_ifs at hp
        exact (Option.some.inj hp).symm
      have hagrees : PreviousAgrees (if version' = 4 then some [] else none) none :=
        fun previous hp => .inl (hnil previous hp)
      refine ⟨?_, fun previous hp => ?_, hagrees, ⟨[], by simp, Reads.nil⟩,
        ⟨[], [], [], by simp [blockBytes], rfl, rfl, rfl, rfl, by simp, Reads.nil, hagrees⟩⟩
      · unfold Compressed
        split_ifs with h4 <;> simp [h4]
      · rw [hnil previous hp]
        simp
    have hinv := hstart.writeEntries (fun ce hce => ?_) hrun
    · rw [List.nil_append] at hinv
      refine ⟨?_, fun hblocks hsize nrThreads hthreads => ?_⟩
      · obtain ⟨body, hout, hbody⟩ := hinv.body
        have hload := hbody hdr after
        rw [hstored, hlenHdr] at hload
        rw [loadAllCacheEntries, hout, List.append_assoc, hread]
        dsimp only
        rw [List.length_append, hlenHdr, Nat.add_sub_cancel_left]
        exact hload
      · obtain ⟨blocks, hout, hentries, hreads, htable⟩ := hinv.table
        rw [if_pos hblocks, htable, loadCacheEntriesThreaded, hout, List.append_assoc, hread]
        dsimp only
        set table := offsetTable hdr.length blocks with htable'
        have henough : table.length ≤ min nrThreads table.length * divRoundUp table.length (min nrThreads table.length) := by
          by_cases hnone : table.length = 0
          · omega
          · exact le_mul_divRoundUp _ (by omega)
        rw [loadThreads_eq _ _ _ _ _ henough, htable',
          offsetTable_read blocks hdr after (by rwa [← hout]) hreads 0, hentries]
    · obtain ⟨old, hold, rfl⟩ := List.mem_map.mp hce
      exact wellFormed_written racy (hcache old hold)

def stagedFile (name : List UInt8) : CacheEntry :=
  ⟨⟨0, 0, 0, 0, 0, 0, 0, 0, 0⟩, 0o100644, 0, List.replicate 20 1, name⟩

lemma storable_stagedFile {name : List UInt8} (hname : 0 ∉ name) (hlen : name.length < 2 ^ 31) :
    StorableEntry 20 (stagedFile name) :=
  ⟨List.length_replicate, hname, hlen⟩

lemma toInt_neg {offset : Nat} (hlow : 2 ^ 31 ≤ offset) (hhigh : offset < 2 ^ 32) : toInt offset < 0 := by
  unfold toInt
  simp only [Int.bmod_def]
  split_ifs
  · omega
  · omega

lemma loadCacheEntriesThread_negative {hashsz version : Nat} {mmap : List UInt8} {ieot : List IndexEntryOffset}
    {block : IndexEntryOffset} (hmem : block ∈ ieot) (hoffset : block.offset < 0) (hnr : block.nr ≠ 0)
    (offset : Nat) : loadCacheEntriesThread hashsz version mmap offset ieot = none := by
  induction ieot generalizing offset with
  | nil => cases hmem
  | cons first ieot ih =>
    rw [loadCacheEntriesThread]
    obtain rfl | hmem := List.mem_cons.mp hmem
    · obtain ⟨nr, hblock⟩ := Nat.exists_eq_succ_of_ne_zero hnr
      rw [hblock, loadCacheEntryBlock, if_pos hoffset]
    · cases loadCacheEntryBlock hashsz version mmap first.nr first.offset none with
      | none => rfl
      | some read => simp only [ih hmem]

def stagedBytes (name : List UInt8) : List UInt8 :=
  (ceWriteEntry 20 (stagedFile name) none).1

lemma length_stagedBytes (name : List UInt8) : name.length < (stagedBytes name).length ∧
    (stagedBytes name).length ≤ name.length + 70 := by
  unfold stagedBytes ceWriteEntry
  dsimp only
  rw [List.length_append, List.length_append, List.length_replicate]
  have hsize : ondiskSize 20 (stagedFile name).ceFlags = 62 := by simp [ondiskSize, stagedFile, ondiskData]
  have hcopy : (copyCacheEntryToOndisk (stagedFile name)).length = 62 := by
    simp [copyCacheEntryToOndisk, stagedFile, putBe32, putBe16]
  have hname : (stagedFile name).name = name := rfl
  unfold alignPaddingSize
  rw [hsize, hcopy, hname]
  omega

lemma doWriteIndex_three (a b c : List UInt8) :
    doWriteIndex 20 (fun _ => false) false 2 3 [stagedFile a, stagedFile b, stagedFile c] =
      some (putBe32 CACHE_SIGNATURE ++ (putBe32 2 ++ putBe32 3) ++ stagedBytes a ++ stagedBytes b ++ stagedBytes c,
        [⟨12, 1⟩, ⟨toInt (12 + (stagedBytes a).length), 1⟩,
          ⟨toInt (12 + (stagedBytes a).length + (stagedBytes b).length), 1⟩]) := by
  have hred : ∀ name, reduceExtended (stagedFile name) = stagedFile name := fun name => by
    simp [reduceExtended, stagedFile]
  have hnull : ∀ name, ¬isNullOid (stagedFile name) := by
    intro name h
    exact absurd (h 1 (by simp [stagedFile])) (by decide)
  have hrm : ∀ name, (stagedFile name).ceFlags &&& CE_REMOVE = 0 := fun _ => UInt32.zero_and
  have hv : hdrVersion 2 [stagedFile a, stagedFile b, stagedFile c] = 2 := by
    simp [hdrVersion, stagedFile]
  have hnone : ∀ name, ceWriteEntry 20 (stagedFile name) none = (stagedBytes name, none) := fun _ => rfl
  unfold doWriteIndex
  simp only [List.map_cons, List.map_nil, hred, hv]
  simp [writeEntries, smudgeRacilyClean, hrm, hnull, divRoundUp, writeEntry, startBlock, hnone, endBlock]
  refine ⟨by decide, ?_, ?_⟩
  · congr 1
    omega
  · congr 1
    omega

lemma doWriteIndex_behind {a b : List UInt8} (c : List UInt8) (hlow : 2 ^ 31 ≤ a.length + b.length)
    (hhigh : a.length + b.length + 200 < 2 ^ 32) :
    ∃ bytes ieot, doWriteIndex 20 (fun _ => false) false 2 3 [stagedFile a, stagedFile b, stagedFile c] =
      some (bytes, ieot) ∧ loadCacheEntriesThreaded 20 bytes 1 ieot = none := by
  refine ⟨_, _, doWriteIndex_three a b c, ?_⟩
  have hoffset : toInt (12 + (stagedBytes a).length + (stagedBytes b).length) < 0 := by
    have ha := length_stagedBytes a
    have hb := length_stagedBytes b
    exact toInt_neg (by omega) (by omega)
  generalize toInt (12 + (stagedBytes a).length + (stagedBytes b).length) = third at hoffset ⊢
  generalize toInt (12 + (stagedBytes a).length) = second
  have hread : ∀ rest, readHdr (putBe32 CACHE_SIGNATURE ++ (putBe32 2 ++ putBe32 3) ++ rest) = some (2, 3) := by
    intro rest
    rw [List.append_assoc, List.append_assoc]
    exact readHdr_spec (by decide : 2 ≤ 2 ∧ 2 ≤ 4) (by decide : 3 < 2 ^ 32) rest
  have henough : [IndexEntryOffset.mk 12 1, ⟨second, 1⟩, ⟨third, 1⟩].length ≤ min 1 3 * divRoundUp 3 (min 1 3) :=
    Nat.le_refl 3
  have hmem : ⟨third, 1⟩ ∈ [IndexEntryOffset.mk 12 1, ⟨second, 1⟩, ⟨third, 1⟩] := by simp
  rw [loadCacheEntriesThreaded, List.append_assoc, List.append_assoc, hread]
  dsimp only
  exact (loadThreads_eq _ _ _ _ _ henough).trans (loadCacheEntriesThread_negative hmem hoffset one_ne_zero 0)

def hugeCache : List CacheEntry :=
  [stagedFile (List.replicate (2 ^ 30) 97), stagedFile (List.replicate (2 ^ 30) 98),
    stagedFile (List.replicate (2 ^ 30) 99)]

end GitCore.Index
