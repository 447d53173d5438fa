import GitCore.Index.Entry
import GitCore.Lib.Bytes
import GitCore.Lib.Paths
import GitCore.Lib.Search

/-!
# Adding and removing index entries

`add_index_entry` with its checks, and the removal of entries, of `read-cache.c`. The array of the
entries is a list. No entry is a sparse directory, so that the index is never expanded.
-/

namespace GitCore.Index

def slash : UInt8 := 0x2f

def ceStage (ce : CacheEntry) : Nat :=
  ((ce.ceFlags &&& CE_STAGEMASK) >>> 12).toNat

/-- `ce_flags & CE_REMOVE` -/
def Removed (ce : CacheEntry) : Prop := ce.ceFlags &&& CE_REMOVE ≠ 0

instance decidableRemoved (ce : CacheEntry) : Decidable (Removed ce) :=
  inferInstanceAs (Decidable (_ ≠ _))

def nameCompare : List UInt8 → List UInt8 → Int
  | [], [] => 0
  | [], _ :: _ => -1
  | _ :: _, [] => 1
  | a :: s, b :: t => if a < b then -1 else if b < a then 1 else nameCompare s t

def cacheNameStageCompare (name1 : List UInt8) (stage1 : Nat) (name2 : List UInt8) (stage2 : Nat) : Int :=
  let cmp := nameCompare name1 name2
  if cmp ≠ 0 then cmp
  else if stage1 < stage2 then -1
  else if stage2 < stage1 then 1
  else 0

def indexNameStagePos (cache : List CacheEntry) (name : List UInt8) (stage : Nat) : Int :=
  binarySearch (fun next =>
    match cache[next]? with
    | some ce => cacheNameStageCompare name stage ce.name (ceStage ce)
    | none => 0) 0 cache.length

def removeIndexEntryAt (cache : List CacheEntry) (pos : Nat) : List CacheEntry :=
  cache.eraseIdx pos

def removeMarkedCacheEntries (cache : List CacheEntry) : List CacheEntry :=
  cache.filter (fun ce => ¬Removed ce)

/-- The slot of a result `-pos - 1`. -/
def insertPos (pos : Int) : Nat := (-pos - 1).toNat

def removeFileFromIndex (cache : List CacheEntry) (path : List UInt8) : List CacheEntry :=
  let pos := indexNameStagePos cache path 0
  let pos := if pos < 0 then insertPos pos else pos.toNat
  cache.take pos ++ (cache.drop pos).dropWhile (fun ce => ce.name = path)

/-- The loop of `has_file_name` over the entries from `pos` on: whether there is a conflict, and what is
left of them. -/
def hasFileName (ce : CacheEntry) (okToReplace : Bool) : List CacheEntry → Bool × List CacheEntry
  | [] => (false, [])
  | p :: cache =>
    if p.name.length ≤ ce.name.length ∨ ¬ce.name <+: p.name then (false, p :: cache)
    else if ceStage p ≠ ceStage ce ∨ p.name[ce.name.length]? ≠ some slash ∨ Removed p then
      let (retval, cache) := hasFileName ce okToReplace cache
      (retval, p :: cache)
    else if okToReplace = false then (true, p :: cache)
    else (true, (hasFileName ce okToReplace cache).2)

def strcmpOffset : List UInt8 → List UInt8 → Int × Nat
  | [], [] => (0, 0)
  | [], b :: _ => (-b.toNat, 0)
  | a :: _, [] => (a.toNat, 0)
  | a :: s, b :: t =>
    if a = b then
      let (cmp, k) := strcmpOffset s t
      (cmp, k + 1)
    else (a.toNat - b.toNat, 0)

/-- The scan of `has_dir_name` for an entry below the directory `dir`, in the entries from `pos` on. -/
def hasSubdir (dir : List UInt8) (stage : Nat) : List CacheEntry → Bool
  | [] => false
  | p :: cache =>
    if p.name.length ≤ dir.length ∨ p.name[dir.length]? ≠ some slash ∨ ¬dir <+: p.name then false
    else if ceStage p = stage ∧ ¬Removed p then true
    else hasSubdir dir stage cache

/-- The entry that is found in the slot `pos`, unless it is marked for removal. -/
def unremovedAt (cache : List CacheEntry) (pos : Int) : Option CacheEntry :=
  if 0 ≤ pos then cache[pos.toNat]?.filter (fun p => ¬Removed p) else none

/-- The loop of `has_dir_name`, with `slash` at this offset. A name that starts with a slash has been
refused as a path. -/
def hasDirNameLoop (name : List UInt8) (stage : Nat) (okToReplace : Bool) :
    Nat → Bool → List CacheEntry → Bool × List CacheEntry
  | 0, retval, cache => (retval, cache)
  | len + 1, retval, cache =>
    if name[len]? ≠ some slash then hasDirNameLoop name stage okToReplace len retval cache
    else
      let dir := name.take len
      let pos := indexNameStagePos cache dir stage
      match unremovedAt cache pos with
      | some _ =>
        if okToReplace = false then (true, cache)
        else hasDirNameLoop name stage okToReplace len true (removeIndexEntryAt cache pos.toNat)
      | none =>
        let pos := if pos < 0 then insertPos pos else pos.toNat
        if hasSubdir dir stage (cache.drop pos) then (retval, cache)
        else hasDirNameLoop name stage okToReplace len retval cache

def AppendsAfter (name : List UInt8) (last : CacheEntry) : Prop :=
  0 < (strcmpOffset name last.name).1 ∧ name[(strcmpOffset name last.name).2]? ≠ some slash

instance decidableAppendsAfter (name : List UInt8) (last : CacheEntry) : Decidable (AppendsAfter name last) :=
  inferInstanceAs (Decidable (_ ∧ _))

def hasDirName (cache : List CacheEntry) (ce : CacheEntry) (okToReplace : Bool) : Bool × List CacheEntry :=
  match cache.getLast? with
  | none => (false, cache)
  | some last =>
    if AppendsAfter ce.name last then (false, cache)
    else hasDirNameLoop ce.name (ceStage ce) okToReplace ce.name.length false cache

def checkFileDirectoryConflict (cache : List CacheEntry) (ce : CacheEntry) (pos : Nat) (okToReplace : Bool) :
    Bool × List CacheEntry :=
  if Removed ce then (false, cache)
  else
    let (file, left) := hasFileName ce okToReplace (cache.drop pos)
    let (dir, cache) := hasDirName (cache.take pos ++ left) ce okToReplace
    (file || dir, cache)

structure AddOption where
  okToAdd : Bool
  okToReplace : Bool
  skipDfCheck : Bool
  justAppend : Bool
  newOnly : Bool
  deriving DecidableEq

/-- Where `add_index_entry_with_check` looks for the entry: a name behind the last is not searched. -/
def addPos (cache : List CacheEntry) (ce : CacheEntry) : Int :=
  match cache.getLast? with
  | none => indexNameStagePos cache ce.name (ceStage ce)
  | some last =>
    if 0 < (strcmpOffset ce.name last.name).1 then -(cache.length : Int) - 1
    else indexNameStagePos cache ce.name (ceStage ce)

/-- `add_index_entry_with_check`, with what `verify_path_internal` says of a name: the result `-1`, `0`, or
one more than the slot, and the entries. -/
def addIndexEntryWithCheck (verifyPath : List UInt8 → UInt32 → Bool) (cache : List CacheEntry) (ce : CacheEntry)
    (option : AddOption) : Int × List CacheEntry :=
  let pos := addPos cache ce
  if 0 ≤ pos then (0, if option.newOnly then cache else cache.set pos.toNat ce)
  else
    let pos := insertPos pos
    -- a merged entry takes the place of all unmerged ones
    let left := if ceStage ce = 0 then (cache.drop pos).dropWhile (fun p => p.name = ce.name) else cache.drop pos
    let okToAdd := option.okToAdd || decide (left.length < (cache.drop pos).length)
    let cache := cache.take pos ++ left
    if okToAdd = false then (-1, cache)
    else if verifyPath ce.name ce.ceMode = false then (-1, cache)
    else if option.skipDfCheck then (pos + 1, cache)
    else
      match checkFileDirectoryConflict cache ce pos option.okToReplace with
      | (false, cache) => (pos + 1, cache)
      | (true, cache) =>
        if option.okToReplace = false then (-1, cache)
        else (-indexNameStagePos cache ce.name (ceStage ce) - 1 + 1, cache)

def addIndexEntry (verifyPath : List UInt8 → UInt32 → Bool) (cache : List CacheEntry) (ce : CacheEntry)
    (option : AddOption) : Int × List CacheEntry :=
  if option.justAppend then (0, cache ++ [ce])
  else
    let (ret, cache) := addIndexEntryWithCheck verifyPath cache ce option
    if ret ≤ 0 then (ret, cache) else (0, cache.insertIdx (ret - 1).toNat ce)

end GitCore.Index
