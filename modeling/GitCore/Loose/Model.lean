import GitCore.Lib.Layout
import GitCore.Lib.Search
import Mathlib.Logic.Function.Basic
import Std.Data.TreeMap

/-!
# The map of loose objects

`src/loose.rs` with the object IDs of `src/hash.rs`: a batch of pairs is written as one file with a
table for either algorithm, and looked up in the bytes of the file. Sizes are 64 bits wide.
-/

namespace GitCore.Loose

inductive HashAlgorithm
  | sha1
  | sha256
deriving DecidableEq

namespace HashAlgorithm

def toU32 : HashAlgorithm → Nat
  | sha1 => 1
  | sha256 => 2

def fromFormatId (algo : Nat) : Option HashAlgorithm :=
  if algo = 0x73686131 then some sha1 else if algo = 0x73323536 then some sha256 else none

def formatId : HashAlgorithm → Nat
  | sha1 => 0x73686131
  | sha256 => 0x73323536

def rawLen : HashAlgorithm → Nat
  | sha1 => 20
  | sha256 => 32

end HashAlgorithm

def gitMaxRawsz : Nat := 32

structure ObjectID where
  hash : List UInt8
  algo : HashAlgorithm
  length_hash : hash.length = gitMaxRawsz
  zeroFilled : hash.drop algo.rawLen = List.replicate (gitMaxRawsz - algo.rawLen) 0
deriving DecidableEq

def ObjectID.asSlice (oid : ObjectID) : List UInt8 := oid.hash.take oid.algo.rawLen

def compareOids : ObjectID → ObjectID → Ordering :=
  compareLex (compareOn ObjectID.hash) (compareOn fun oid => oid.algo.toU32)

inductive MapType
  | reserved
  | looseObject
  | shallow
  | submodule
deriving DecidableEq

def MapType.toU32 : MapType → Nat
  | reserved => 0
  | looseObject => 1
  | shallow => 2
  | submodule => 3

def MapType.fromU32 : Nat → Option MapType
  | 0 => some reserved
  | 1 => some looseObject
  | 2 => some shallow
  | 3 => some submodule
  | _ => none

structure MappedObject where
  oid : ObjectID
  kind : MapType

abbrev BTreeMap := Std.TreeMap ObjectID MappedObject compareOids

def BTreeMap.keyList (map : BTreeMap) : List ObjectID := map.toList.map Prod.fst

def BTreeMap.valueList (map : BTreeMap) : List MappedObject := map.toList.map Prod.snd

structure ObjectMemoryMap where
  toCompat : BTreeMap
  toStorage : BTreeMap
  compat : HashAlgorithm
  storage : HashAlgorithm

def ObjectMemoryMap.new (storage compat : HashAlgorithm) : ObjectMemoryMap := ⟨∅, ∅, compat, storage⟩

def requiredNulPadding (nitems shortLen : Nat) : Nat := (4 - nitems * shortLen % 4) % 4

/-- The loop of `last_matching_offset`, from index `i` on with `left` indices to go. -/
def lastMatchingOffsetFrom (a b : ObjectID) (algop : HashAlgorithm) (i : Nat) : Nat → Nat
  | 0 => algop.rawLen
  | left + 1 => if a.hash.getD i 0 ≠ b.hash.getD i 0 then i else lastMatchingOffsetFrom a b algop (i + 1) left

def lastMatchingOffset (a b : ObjectID) (algop : HashAlgorithm) : Nat :=
  lastMatchingOffsetFrom a b algop 0 (algop.rawLen + 1)

def findShortNameLenFrom (algop : HashAlgorithm) (cur : ObjectID) (len : Nat) : List ObjectID → Nat
  | [] => len
  | item :: iter =>
    let offset := lastMatchingOffset cur item algop
    findShortNameLenFrom algop item (if offset ≥ len then offset + 1 else len) iter

def findShortNameLen (map : BTreeMap) (algop : HashAlgorithm) : Nat :=
  if map.size ≤ 1 then 1
  else match map.keyList with
    | [] => 1
    | cur :: iter =>
      let len := findShortNameLenFrom algop cur 1 iter
      if len > algop.rawLen then algop.rawLen else len

def headerSize : Nat := 4 * 5 + (4 + 4 + 8) * 2 + 8

namespace ObjectMemoryMap

variable (self : ObjectMemoryMap)

def storageShortLen : Nat := findShortNameLen self.toCompat self.storage

def compatShortLen : Nat := findShortNameLen self.toStorage self.compat

def storageNpadding : Nat := requiredNulPadding self.toCompat.size self.storageShortLen

def compatNpadding : Nat := requiredNulPadding self.toCompat.size self.compatShortLen

/-- Where the tables of the storage algorithm start, those of the other one, and where they end. -/
def storageOff : Nat := headerSize + self.storageNpadding

def compatOff : Nat :=
  self.storageOff + self.toCompat.size * (self.storageShortLen + self.storage.rawLen + 4) + self.compatNpadding

def trailerOff : Nat := self.compatOff + self.toCompat.size * (self.compatShortLen + self.compat.rawLen + 4)

def orderMap (oid : ObjectID) : Nat :=
  self.toCompat.keyList.findIdx fun key => compareOids key oid = .eq

/-- The tables in the order in which they are written; `as u32` and `to_be_bytes` keep the low bits. -/
def tables : List (List UInt8) :=
  [[76, 77, 65, 80], beBytes 4 1, beBytes 4 headerSize, beBytes 4 self.toCompat.size, beBytes 4 2,
    beBytes 4 self.storage.formatId, beBytes 4 self.storageShortLen, beBytes 8 self.storageOff,
    beBytes 4 self.compat.formatId, beBytes 4 self.compatShortLen, beBytes 8 self.compatOff,
    beBytes 8 self.trailerOff,
    List.replicate self.storageNpadding 0,
    self.toCompat.keyList.flatMap fun oid => oid.asSlice.take self.storageShortLen,
    self.toCompat.keyList.flatMap ObjectID.asSlice,
    self.toCompat.valueList.flatMap fun value => beBytes 4 value.kind.toU32,
    List.replicate self.compatNpadding 0,
    self.toStorage.keyList.flatMap fun oid => oid.asSlice.take self.compatShortLen,
    self.toCompat.valueList.flatMap fun value => value.oid.asSlice,
    self.toStorage.valueList.flatMap fun value => beBytes 4 (self.orderMap value.oid)]

def write : List UInt8 := self.tables.flatten

end ObjectMemoryMap

structure ObjectFormatData where
  dataOff : Nat
  shortenedLen : Nat
  fullOff : Nat
  mappingOff : Option Nat

structure MmapedObjectMap where
  memory : List UInt8
  nitems : Nat
  metaOff : Nat
  objFormats : HashAlgorithm → Option ObjectFormatData
  mainAlgo : HashAlgorithm

inductive MmapedParseError
  | headerTooSmall
  | invalidSignature
  | invalidVersion
  | unknownAlgorithm
  | offsetTooLarge
  | tooFewObjectFormats
  | unalignedData
  | invalidTrailerOffset
deriving DecidableEq

def checked (n : Nat) : Except MmapedParseError Nat := if n < 2 ^ 64 then .ok n else .error .offsetTooLarge

def verifyAligned (offset : Nat) : Except MmapedParseError Unit :=
  if offset % 4 ≠ 0 then .error .unalignedData else .ok ()

def verifyValid (data : List UInt8) (offset : Nat) : Except MmapedParseError Unit :=
  if offset ≥ data.length then .error .offsetTooLarge else .ok ()

def readFormat (data : List UInt8) (nitems offset : Nat) :
    Except MmapedParseError (HashAlgorithm × Nat × Nat × Nat × Nat) := do
  if offset + (4 + 4 + 8) + 8 > data.length then throw .headerTooSmall
  let shortenedLen := beAt data (offset + 4) 4
  let dataOff := beAt data (offset + 8) 8
  let algo ← match HashAlgorithm.fromFormatId (beAt data offset 4) with
    | some algo => pure algo
    | none => throw .unknownAlgorithm
  let shortenedTableLen ← checked (shortenedLen * nitems)
  let fullOff ← checked (dataOff + shortenedTableLen)
  verifyAligned fullOff
  verifyValid data fullOff
  let fullLength ← checked (algo.rawLen * nitems)
  let off ← checked (fullLength + fullOff)
  verifyAligned off
  verifyValid data off
  let metaSize ← checked (nitems * 4)
  let metaEnd ← checked (off + metaSize)
  verifyValid data metaEnd
  pure (algo, dataOff, shortenedLen, fullOff, off)

def readFormats (data : List UInt8) (nitems i offset : Nat) (metaOff : Option Nat)
    (formats : HashAlgorithm → Option ObjectFormatData) :
    Nat → Except MmapedParseError (Nat × Option Nat × (HashAlgorithm → Option ObjectFormatData))
  | 0 => pure (offset, metaOff, formats)
  | left + 1 => do
    let (algo, dataOff, shortenedLen, fullOff, off) ← readFormat data nitems offset
    readFormats data nitems (i + 1) (offset + (4 + 4 + 8)) (if i = 0 then some off else metaOff)
      (Function.update formats algo
        (some ⟨dataOff, shortenedLen, fullOff, if i = 0 then none else some off⟩)) left

def newMmaped (data : List UInt8) (hashAlgo : HashAlgorithm) : Except MmapedParseError MmapedObjectMap := do
  if data.length < headerSize then throw .headerTooSmall
  if slice data 0 4 ≠ [76, 77, 65, 80] then throw .invalidSignature
  if beAt data 4 4 ≠ 1 then throw .invalidVersion
  let nitems := beAt data 12 4
  let nobjFormats := beAt data 16 4
  if nobjFormats < 2 then throw .tooFewObjectFormats
  let (offset, metaOff, formats) ← readFormats data nitems 0 20 none (fun _ => none) nobjFormats
  let trailer := beAt data offset 8
  verifyAligned trailer
  verifyValid data trailer
  let trailerEnd ← checked (trailer + hashAlgo.rawLen)
  if trailerEnd ≠ data.length then throw .invalidTrailerOffset
  match metaOff with
  | some metaOff => pure ⟨data, nitems, metaOff, formats, hashAlgo⟩
  | none => throw .tooFewObjectFormats

def binarySearchSlice (sl wanted : List UInt8) : Option Nat :=
  let len := wanted.length
  (binarySearchBy (fun index => compare (slice sl (index - index % len) len) wanted) sl.length).map (· / len)

namespace MmapedObjectMap

variable (self : MmapedObjectMap)

/-- `new` has checked that the tables are inside the file. -/
def lookUpObject (oid : ObjectID) : Option Nat := do
  let params ← self.objFormats oid.algo
  let shortTable := slice self.memory params.dataOff (params.shortenedLen * self.nitems)
  let index ← binarySearchSlice shortTable (oid.asSlice.take params.shortenedLen)
  match params.mappingOff with
  | some fromOff =>
    let mapped := beAt self.memory (fromOff + index * 4) 4
    if mapped ≥ self.nitems then none
    else if slice self.memory (params.fullOff + mapped * oid.algo.rawLen) oid.algo.rawLen ≠ oid.asSlice then none
    else some mapped
  | none =>
    if slice self.memory (params.fullOff + index * oid.algo.rawLen) oid.algo.rawLen ≠ oid.asSlice then none
    else some index

def oidOfBytes (bytes : List UInt8) (algo : HashAlgorithm) : Option ObjectID :=
  if h : bytes.length = algo.rawLen then
    some ⟨bytes ++ List.replicate (gitMaxRawsz - algo.rawLen) 0, algo,
      by cases algo <;> simp [h, gitMaxRawsz, HashAlgorithm.rawLen], by rw [← h, List.drop_left]⟩
  else none

def oidFromOffset (offset : Nat) (algo : HashAlgorithm) : Option ObjectID := do
  let aparams ← self.objFormats algo
  oidOfBytes (slice self.memory (aparams.fullOff + offset * algo.rawLen) algo.rawLen) algo

def mapObject (oid : ObjectID) (algo : HashAlgorithm) : Option MappedObject := do
  let main ← self.lookUpObject oid
  let kind ← MapType.fromU32 (beAt self.memory (self.metaOff + main * 4) 4)
  pure ⟨← self.oidFromOffset main algo, kind⟩

def mapOid (oid : ObjectID) (algo : HashAlgorithm) : Option ObjectID :=
  if algo = oid.algo then some oid
  else do
    let main ← self.lookUpObject oid
    self.oidFromOffset main algo

end MmapedObjectMap

structure ObjectMap where
  mem : ObjectMemoryMap
  batch : Option ObjectMemoryMap

def ObjectMap.startBatch (self : ObjectMap) : ObjectMap :=
  match self.batch with
  | none => { self with batch := some (ObjectMemoryMap.new self.mem.storage self.mem.compat) }
  | some _ => self

def ObjectMap.finishBatch (self : ObjectMap) : List UInt8 × ObjectMap :=
  match self.batch with
  | some txn => (txn.write, { self with batch := none })
  | none => ([], self)

def insertInto (map : ObjectMemoryMap) (storage compat : ObjectID) (kind : MapType) : ObjectMemoryMap :=
  { map with
    toCompat := map.toCompat.insert storage ⟨compat, kind⟩
    toStorage := map.toStorage.insert compat ⟨storage, kind⟩ }

def ObjectMap.insert (self : ObjectMap) (oid1 oid2 : ObjectID) (kind : MapType) (write : Bool) : ObjectMap :=
  let (compatOid, storageOid) := if oid1.algo = self.mem.compat then (oid1, oid2) else (oid2, oid1)
  { mem := insertInto self.mem storageOid compatOid kind
    batch := if write then self.batch.map fun batch => insertInto batch storageOid compatOid kind else self.batch }

end GitCore.Loose
