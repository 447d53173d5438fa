import GitCore.Graph.Lookup

/-!
# Chains of multi-pack indexes

The lookups of `midx.c` and `verify_midx_file`. A chain is the list of its layers, the newest first, and a pointer
into the chain is the rest of the list from there on. Numbers are those of `uint32_t` where a sum can be too large.
-/

namespace GitCore.Midx

open GitCore.Graph (ObjectId)

/-- How a call ends without a result: by `die`, by `BUG`, or with an access that is not defined. -/
inductive Failure
  | died
  | bug
  | undefined
  deriving DecidableEq

def fetch {α : Type} (table : List α) (i : Nat) : Except Failure α :=
  match table[i]? with
  | some a => .ok a
  | none => .error .undefined

def u32 (n : Nat) : Nat := n % 2 ^ 32

/-- A `struct packed_git`, with `find_pack_entry_one` for its index. -/
structure PackedGit where
  isPackValid : Bool
  badObjects : ObjectId → Bool
  /-- `open_pack_index` succeeds. -/
  opensIndex : Bool
  findPackEntryOne : ObjectId → Nat

/-- A `struct multi_pack_index`, without its base. `packs` tells what `packfile_store_load_pack` makes of the pack
names, `none` for `MIDX_PACK_ERROR`. -/
structure MultiPackIndex where
  chunkOidFanout : List Nat
  chunkOidLookup : List ObjectId
  /-- The pack ids and offsets. -/
  chunkObjectOffsets : List (Nat × Nat)
  chunkLargeOffsets : Option (List Nat)
  packs : List (Option PackedGit)

abbrev MidxChain := List MultiPackIndex

namespace MultiPackIndex

def numObjects (m : MultiPackIndex) : Nat := m.chunkOidFanout.getD 255 0

def numPacks (m : MultiPackIndex) : Nat := m.packs.length

end MultiPackIndex

/-- The objects of a chain, as `num_objects_in_base` of a layer over it. -/
def objectsIn (chain : MidxChain) : Nat := (chain.map MultiPackIndex.numObjects).sum

/-- `num_packs_in_base` of a layer over the chain. -/
def packsIn (chain : MidxChain) : Nat := (chain.map MultiPackIndex.numPacks).sum

def midxForObject : MidxChain → Nat → Except Failure (MultiPackIndex × MidxChain × Nat)
  | [], _ => .error .bug
  | m :: base, pos =>
    if pos < objectsIn base then midxForObject base pos
    else if u32 (m.numObjects + objectsIn base) ≤ pos then .error .died
    else .ok (m, base, pos - objectsIn base)

def midxForPack : MidxChain → Nat → Except Failure (MultiPackIndex × Nat)
  | [], _ => .error .bug
  | m :: base, packIntId =>
    if packIntId < packsIn base then midxForPack base packIntId
    else if u32 (m.numPacks + packsIn base) ≤ packIntId then .error .died
    else .ok (m, packIntId - packsIn base)

def prepareMidxPack (chain : MidxChain) (packIntId : Nat) : Except Failure Bool := do
  let (m, packIntId) ← midxForPack chain packIntId
  let pack ← fetch m.packs packIntId
  return pack.isNone

def nthMidxedPack (chain : MidxChain) (packIntId : Nat) : Except Failure (Option PackedGit) := do
  let (m, packIntId) ← midxForPack chain packIntId
  fetch m.packs packIntId

def bsearchLoop (table : List ObjectId) (hash : ObjectId) (lo hi : Nat) : Except Failure (Option Nat) :=
  if lo < hi then
    let mi := lo + (hi - lo) / 2
    match table[mi]? with
    | none => .error .undefined
    | some entry =>
      if entry = hash then .ok (some mi)
      else if hash < entry then bsearchLoop table hash lo mi
      else bsearchLoop table hash (mi + 1) hi
  else .ok none
termination_by hi - lo

def bsearchOneMidx (m : MultiPackIndex) (oid : ObjectId) : Except Failure (Option Nat) := do
  let first := (oid.headD 0).toNat
  let hi ← fetch m.chunkOidFanout first
  let lo ← if first = 0 then pure 0 else fetch m.chunkOidFanout (first - 1)
  bsearchLoop m.chunkOidLookup oid lo hi

def bsearchMidx : MidxChain → ObjectId → Except Failure (Option Nat)
  | [], _ => .ok none
  | m :: base, oid => do
    match ← bsearchOneMidx m oid with
    | some pos => return some (u32 (pos + objectsIn base))
    | none => bsearchMidx base oid

def nthMidxedObjectOid (chain : MidxChain) (n : Nat) : Except Failure (Option ObjectId) :=
  if u32 (objectsIn chain) ≤ n then .ok none
  else do
    let (m, _, n) ← midxForObject chain n
    return some (← fetch m.chunkOidLookup n)

def MultiPackIndex.offset (m : MultiPackIndex) (offset32 : Nat) : Except Failure Nat :=
  match m.chunkLargeOffsets with
  | none => .ok offset32
  | some large =>
    if offset32.testBit 31 then
      match large[offset32 ^^^ 2 ^ 31]? with
      | some offset => .ok offset
      | none => .error .died
    else .ok offset32

def nthMidxedOffset (chain : MidxChain) (pos : Nat) : Except Failure Nat := do
  let (m, _, pos) ← midxForObject chain pos
  let entry ← fetch m.chunkObjectOffsets pos
  m.offset entry.2

def nthMidxedPackIntId (chain : MidxChain) (pos : Nat) : Except Failure Nat := do
  let (m, base, pos) ← midxForObject chain pos
  let entry ← fetch m.chunkObjectOffsets pos
  return u32 (packsIn base + entry.1)

def fillMidxEntry (chain : MidxChain) (oid : ObjectId) : Except Failure (Option (PackedGit × Nat)) := do
  match ← bsearchMidx chain oid with
  | none => return none
  | some pos =>
    let (m, base, _) ← midxForObject chain pos
    let packIntId ← nthMidxedPackIntId (m :: base) pos
    if ← prepareMidxPack (m :: base) packIntId then return none
    match ← fetch m.packs (u32 (packIntId + 2 ^ 32 - packsIn base)) with
    | none => .error .undefined
    | some p =>
      if p.isPackValid = false ∨ p.badObjects oid = true then return none
      return some (p, ← nthMidxedOffset (m :: base) pos)

inductive MidxReport
  | incorrectChecksum
  | failedToLoadPack (i : Nat)
  | noOid
  | oidOutOfOrder (i : Nat) (oid1 oid2 : ObjectId)
  | failedToLoadEntry (pos : Nat) (oid : ObjectId)
  | failedToLoadIndex
  | incorrectOffset (pos : Nat) (oid : ObjectId) (mOffset pOffset : Nat)
  deriving DecidableEq

def gather (round : Nat → Except Failure (List MidxReport)) : List Nat → Except Failure (List MidxReport)
  | [] => .ok []
  | i :: is => do
    let reports ← round i
    let more ← gather round is
    return reports ++ more

def checkPack (chain : MidxChain) (i : Nat) : Except Failure (List MidxReport) := do
  return if ← prepareMidxPack chain i then [.failedToLoadPack i] else []

def checkOrder (chain : MidxChain) (objectsInBase i : Nat) : Except Failure (List MidxReport) := do
  match ← nthMidxedObjectOid chain (u32 (objectsInBase + i)),
      ← nthMidxedObjectOid chain (u32 (objectsInBase + i + 1)) with
  | some oid1, some oid2 => return if oid1 < oid2 then [] else [.oidOutOfOrder i oid1 oid2]
  | _, _ => .error .undefined

structure PairPosVsId where
  pos : Nat
  packIntId : Nat

/-- The entry of a position is looked up by its id. The second value tells that the loop ends. -/
def checkEntry (chain : MidxChain) (pos : Nat) : Except Failure (List MidxReport × Bool) := do
  match ← nthMidxedObjectOid chain pos with
  | none => .error .undefined
  | some oid =>
    match ← fillMidxEntry chain oid with
    | none => return ([.failedToLoadEntry pos oid], false)
    | some (p, mOffset) =>
      if p.opensIndex = false then return ([.failedToLoadIndex], true)
      if mOffset ≠ p.findPackEntryOne oid then
        return ([.incorrectOffset pos oid mOffset (p.findPackEntryOne oid)], false)
      return ([], false)

def closePack (chain : MidxChain) (last : Option PairPosVsId) (pair : PairPosVsId) : Except Failure Unit :=
  match last with
  | none => .ok ()
  | some last => if last.packIntId ≠ pair.packIntId then (nthMidxedPack chain last.packIntId).map fun _ => () else .ok ()

def checkEntries (chain : MidxChain) (last : Option PairPosVsId) :
    List PairPosVsId → Except Failure (List MidxReport)
  | [] => .ok []
  | pair :: pairs => do
    closePack chain last pair
    let (reports, stop) ← checkEntry chain pair.pos
    if stop then return reports
    let more ← checkEntries chain (some pair) pairs
    return reports ++ more

def pairsOf (chain : MidxChain) : List Nat → Except Failure (List PairPosVsId)
  | [] => .ok []
  | i :: is => do
    let packIntId ← nthMidxedPackIntId chain i
    let more ← pairsOf chain is
    return ⟨i, packIntId⟩ :: more

/-- The reports of `verify_midx_file`, with `QSORT` as a parameter. -/
def verifyReports (qsort : List PairPosVsId → List PairPosVsId) (m : MultiPackIndex) (base : MidxChain)
    (checksumValid : Bool) : Except Failure (List MidxReport) := do
  let checksum := if checksumValid then [] else [MidxReport.incorrectChecksum]
  let packs ← gather (checkPack (m :: base)) (List.range (u32 (packsIn (m :: base))))
  if m.numObjects = 0 then return checksum ++ packs ++ [.noOid]
  -- The loop over the layers looks at the newest one again and again.
  let order ← gather (checkOrder (m :: base) (objectsIn base))
    ((m :: base).flatMap fun _ => List.range (m.numObjects - 1))
  let pairs ← pairsOf (m :: base) (List.range (u32 (objectsIn (m :: base))))
  if pairs.length < m.numObjects then .error .undefined
  else
    let entries ← checkEntries (m :: base) none (qsort (pairs.take m.numObjects) ++ pairs.drop m.numObjects)
    return checksum ++ packs ++ order ++ entries

/-- `verify_midx_file`, for the chain that was loaded; no chain is `NULL`. -/
def verifyMidxFile (qsort : List PairPosVsId → List PairPosVsId) (fileExists checksumValid : Bool) :
    MidxChain → Except Failure Nat
  | [] => .ok (if fileExists then 1 else 0)
  | m :: base => do
    let reports ← verifyReports qsort m base checksumValid
    return if reports = [] then 0 else 1

end GitCore.Midx
