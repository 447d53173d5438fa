import GitCore.Graph.Lookup
import GitCore.Lib.CountingSort
import GitCore.Lib.Layout

/-!
# Pack indexes

`write_idx_file` and `write_rev_file` of `pack-write.c`, what `packfile.c` reads from the index, and
the reverse index that `pack-revindex.c` makes of it.
-/

namespace GitCore.PackIdx

open Graph (oidcmp)

structure HashAlgo where
  rawsz : Nat
  rawsz_pos : 0 < rawsz
  oidVersion : Nat
  hash : List UInt8 → List UInt8
  length_hash : ∀ data, (hash data).length = rawsz

abbrev ObjectId (algo : HashAlgo) := {hash : List UInt8 // hash.length = algo.rawsz}

structure PackIdxEntry (algo : HashAlgo) where
  oid : ObjectId algo
  crc32 : UInt32
  offset : Nat
  offset_lt : offset < 2 ^ 63

structure PackIdxOption where
  version : Nat
  version_le : version ≤ 2
  off32Limit : UInt32
  anomaly : List UInt32
  strict : Bool

def packIdxSignature : Nat := 0xff744f63

section Write

variable {algo : HashAlgo} (opts : PackIdxOption)

def needLargeOffset (offset : Nat) : Bool :=
  offset >>> 31 ≠ 0 || opts.off32Limit.toNat < offset || opts.anomaly.contains (UInt32.ofNat offset)

def lastObjOffset (objects : List (PackIdxEntry algo)) : Nat :=
  objects.foldl (fun last e => if last < e.offset then e.offset else last) 0

def indexVersion (objects : List (PackIdxEntry algo)) : Nat :=
  if needLargeOffset opts (lastObjOffset objects) then 2 else opts.version

def sortBySha (objects : List (PackIdxEntry algo)) : List (PackIdxEntry algo) :=
  objects.mergeSort fun a b => a.oid.val ≤ b.oid.val

/-- The first-level table; the loop is that of `write_graph_chunk_fanout`. -/
def fanout (sorted : List (PackIdxEntry algo)) : List Nat :=
  Graph.fanoutFrom 256 0 0 (sorted.map (·.oid.val))

/-- The 32-bit offset table behind `nr` large offsets. -/
def offsetWords : Nat → List (PackIdxEntry algo) → List Nat
  | _, [] => []
  | nr, obj :: list =>
    if needLargeOffset opts obj.offset then (0x80000000 ||| nr) :: offsetWords (nr + 1) list
    else obj.offset :: offsetWords nr list

def nrLargeOffset (sorted : List (PackIdxEntry algo)) : Nat :=
  sorted.countP fun obj => needLargeOffset opts obj.offset

def largeOffsets : Nat → List (PackIdxEntry algo) → List Nat
  | 0, _ => []
  | _ + 1, [] => []
  | nr + 1, obj :: list =>
    if needLargeOffset opts obj.offset then obj.offset :: largeOffsets nr list else largeOffsets (nr + 1) list

def idxTables (version : Nat) (sorted : List (PackIdxEntry algo)) : List UInt8 :=
  if version < 2 then
    (fanout sorted).flatMap (beBytes 4) ++
    sorted.flatMap (fun obj => beBytes 4 obj.offset ++ obj.oid.val)
  else
    beBytes 4 packIdxSignature ++ beBytes 4 version ++ (fanout sorted).flatMap (beBytes 4) ++
    sorted.flatMap (fun obj => obj.oid.val) ++ sorted.flatMap (fun obj => beBytes 4 obj.crc32.toNat) ++
    (offsetWords opts 0 sorted).flatMap (beBytes 4) ++
    (largeOffsets opts (nrLargeOffset opts sorted) sorted).flatMap (beBytes 8)

def appearsTwice : List (PackIdxEntry algo) → Bool
  | a :: b :: list => a.oid = b.oid || appearsTwice (b :: list)
  | _ => false

/-- The file and the sorted objects; nothing when `WRITE_IDX_STRICT` finds an object twice. -/
def writeIdxFile (objects : List (PackIdxEntry algo)) (sha1 : ObjectId algo) :
    Option (List UInt8 × List (PackIdxEntry algo)) :=
  let sorted := sortBySha objects
  if opts.strict && appearsTwice sorted then none
  else
    let written := idxTables opts (indexVersion opts objects) sorted ++ sha1.val
    some (written ++ algo.hash written, sorted)

def ridxSignature : Nat := 0x52494458

def ridxVersion : Nat := 1

def packOrder (objects : List (PackIdxEntry algo)) : List Nat :=
  (List.range objects.length).mergeSort fun a b =>
    (objects[a]?.map (·.offset)).getD 0 ≤ (objects[b]?.map (·.offset)).getD 0

def writeRevFileOrder (packOrder : List Nat) (hash : ObjectId algo) : List UInt8 :=
  let written := beBytes 4 ridxSignature ++ beBytes 4 ridxVersion ++ beBytes 4 algo.oidVersion ++
    packOrder.flatMap (beBytes 4) ++ hash.val
  written ++ algo.hash written

def writeRevFile (objects : List (PackIdxEntry algo)) (hash : ObjectId algo) : List UInt8 :=
  writeRevFileOrder (packOrder objects) hash

end Write

section Read

variable (algo : HashAlgo)

structure PackedGit where
  indexVersion : Nat
  indexData : List UInt8
  numObjects : Nat
  packSize : Nat

inductive LoadError
  | tooSmall
  | unsupportedVersion (version : Nat)
  | nonMonotonic
  | wrongV1Size
  | wrongV2Size
deriving DecidableEq

def checkFanout (idxMap : List UInt8) (index : Nat) : Option Nat :=
  (List.range 256).foldlM (fun nr i => if beAt idxMap (index + 4 * i) 4 < nr then none
    else some (beAt idxMap (index + 4 * i) 4)) 0

def loadIdx (idxMap : List UInt8) (packSize : Nat) : Except LoadError PackedGit := do
  let hashsz := algo.rawsz
  if idxMap.length < 4 * 256 + hashsz + hashsz then throw .tooSmall
  let version := if beAt idxMap 0 4 = packIdxSignature then beAt idxMap 4 4 else 1
  if beAt idxMap 0 4 = packIdxSignature ∧ (version < 2 ∨ 2 < version) then throw (.unsupportedVersion version)
  match checkFanout idxMap (if 1 < version then 8 else 0) with
  | none => throw .nonMonotonic
  | some nr =>
    if version = 1 then
      if idxMap.length ≠ 4 * 256 + hashsz + hashsz + nr * (hashsz + 4) then throw .wrongV1Size
    else
      let minSize := 8 + 4 * 256 + hashsz + hashsz + nr * (hashsz + 4 + 4)
      let maxSize := if nr ≠ 0 then minSize + (nr - 1) * 8 else minSize
      if idxMap.length < minSize ∨ maxSize < idxMap.length then throw .wrongV2Size
    return ⟨version, idxMap, nr, packSize⟩

/-- The slot of the name, or `-lo - 1` for the slot where it belongs. -/
def bsearchHash (data : List UInt8) (fanout table stride : Nat) (hash : ObjectId algo) : Int :=
  let first := (hash.val.headD 0).toNat
  let hi := beAt data (fanout + 4 * first) 4
  let lo := if first = 0 then 0 else beAt data (fanout + 4 * (first - 1)) 4
  binarySearch (fun mi => oidcmp hash.val (slice data (table + mi * stride) algo.rawsz)) lo hi

def bsearchPack (oid : ObjectId algo) (p : PackedGit) : Int :=
  if p.indexVersion = 1 then bsearchHash algo p.indexData 0 (4 * 256 + 4) (algo.rawsz + 4) oid
  else bsearchHash algo p.indexData 8 (4 * 256 + 8) algo.rawsz oid

def nthPackedObjectId (p : PackedGit) (n : Nat) : Option (List UInt8) :=
  if p.numObjects ≤ n then none
  else if p.indexVersion = 1 then some (slice p.indexData (4 * 256 + ((algo.rawsz + 4) * n + 4)) algo.rawsz)
  else some (slice p.indexData (4 * 256 + 8 + algo.rawsz * n) algo.rawsz)

/-- Nothing when `check_pack_index_ptr` dies. -/
def nthPackedObjectOffset (p : PackedGit) (n : Nat) : Option Nat :=
  if p.indexVersion = 1 then some (beAt p.indexData (4 * 256 + (algo.rawsz + 4) * n) 4)
  else
    let index := 4 * 256 + (8 + p.numObjects * (algo.rawsz + 4))
    let off := beAt p.indexData (index + 4 * n) 4
    if off &&& 0x80000000 = 0 then some off
    else
      let index := index + (p.numObjects * 4 + (off &&& 0x7fffffff) * 8)
      if p.indexData.length - 8 ≤ index then none
      else some (beAt p.indexData index 8)

structure RevindexEntry where
  offset : Nat
  nr : Nat
deriving DecidableEq

/-- The offsets of an index of version 2: `off64` moves on with every large one. -/
def revOffsets (data : List UInt8) : Nat → Nat → Nat → List Nat
  | 0, _, _ => []
  | num + 1, off32, off64 =>
    let off := beAt data off32 4
    if off &&& 0x80000000 = 0 then off :: revOffsets data num (off32 + 4) off64
    else beAt data off64 8 :: revOffsets data num (off32 + 4) (off64 + 8)

/-- The offsets that `create_pack_revindex` extracts, in the order of the index. -/
def extractOffsets (p : PackedGit) : List Nat :=
  if 1 < p.indexVersion then
    let off32 := 4 * 256 + (8 + p.numObjects * (algo.rawsz + 4))
    revOffsets p.indexData p.numObjects off32 (off32 + 4 * p.numObjects)
  else (List.range p.numObjects).map fun i => beAt p.indexData (4 * 256 + (algo.rawsz + 4) * i) 4

def digitSize : Nat := 16

def buckets : Nat := 2 ^ digitSize

def bucketFor (bits : Nat) (e : RevindexEntry) : Nat :=
  (e.offset >>> bits) % buckets

/-- The passes of `sort_revindex` from `bits` on, with the arrays `from` and `to`. To shift an
`off_t` by 64 bits is not defined. -/
def sortPasses (max bits : Nat) (src dest : List RevindexEntry) : Option (List RevindexEntry) :=
  if 64 ≤ bits then none
  else if max >>> bits = 0 then some src
  else sortPasses max (bits + digitSize) (CountingSort.pass (bucketFor bits) buckets src dest) src
termination_by 64 - bits
decreasing_by
  simp only [digitSize]
  omega

def sortRevindex (entries : List RevindexEntry) (max : Nat) : Option (List RevindexEntry) :=
  sortPasses max 0 entries entries

structure Revindex where
  entries : List RevindexEntry
  packEnd : Int

def createPackRevindex (p : PackedGit) : Option Revindex :=
  let entries := (extractOffsets algo p).zipIdx.map fun (offset, i) => ⟨offset, i⟩
  (sortRevindex entries p.packSize).map fun sorted => ⟨sorted, p.packSize - algo.rawsz⟩

end Read

end GitCore.PackIdx
