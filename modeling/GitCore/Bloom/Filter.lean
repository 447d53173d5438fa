import GitCore.Bloom.Hash
import GitCore.Lib.BitTable
import GitCore.Bloom.Diff

/-!
# Changed-path Bloom filters

`get_or_compute_bloom_filter` with its upgrade of filters of another version, and the queries of
`bloom.c`. The table of paths is a list without duplicates.
-/

namespace GitCore.Bloom

open Index (slash)
open Trees (TreeEntry isDir)

/-- `struct bloom_filter` with its data; `len` is the length of the data. -/
structure BloomFilter where
  data : List UInt8
  version : UInt32
  deriving DecidableEq

def addKeyToFilter (key : List UInt32) (data : List UInt8) : List UInt8 :=
  (key.map fun hash => hash.toNat % (data.length * 8)).foldl setBit data

def bloomFilterContains (filter : BloomFilter) (key : List UInt32) : Int :=
  if filter.data.length * 8 = 0 then -1
  else if key.all fun hash => hasBit filter.data (hash.toNat % (filter.data.length * 8)) then 1
  else 0

/-- `bloom_filter_contains_vec` from the result so far. -/
def containsVecFrom (filter : BloomFilter) : Int → List (List UInt32) → Int
  | ret, [] => ret
  | ret, key :: vec => if 0 < ret then containsVecFrom filter (bloomFilterContains filter key) vec else ret

def bloomFilterContainsVec (filter : BloomFilter) (vec : List (List UInt32)) : Int := containsVecFrom filter 1 vec

def cutLastSlash (path : List UInt8) : List UInt8 :=
  ((path.reverse.dropWhile (· ≠ slash)).drop 1).reverse

/-- The `do` loop over the leading directories of a changed path, at most so many. -/
def leadingPaths : Nat → List UInt8 → List (List UInt8)
  | 0, path => [path]
  | n + 1, path => if cutLastSlash path = [] then [path] else path :: leadingPaths n (cutLastSlash path)

def addPath (pathmap : List (List UInt8)) (path : List UInt8) : List (List UInt8) :=
  if path ∈ pathmap then pathmap else path :: pathmap

def pathmapOf (queue : List (List UInt8)) : List (List UInt8) :=
  (queue.flatMap fun path => leadingPaths path.length path).foldl addPath []

def initTruncatedLargeFilter (version : UInt32) : BloomFilter := ⟨[0xff], version⟩

/-- The length of a filter for so many paths, in 32-bit arithmetic, and at least 1. -/
def filterLen (size : Nat) (settings : BloomFilterSettings) : Nat :=
  let len := (UInt32.ofNat size * settings.bitsPerEntry + 8 - 1) / 8
  if len = 0 then 1 else len.toNat

/-- What `get_or_compute_bloom_filter` makes of the queued pairs. -/
def filterOfQueue (queue : List (List UInt8)) (settings : BloomFilterSettings) : BloomFilter :=
  if queue.length ≤ settings.maxChangedPaths.toNat then
    let pathmap := pathmapOf queue
    if settings.maxChangedPaths.toNat < pathmap.length then initTruncatedLargeFilter settings.hashVersion
    else
      ⟨(pathmap.map (bloomKeyFill · settings)).foldl (fun data key => addKeyToFilter key data)
        (List.replicate (filterLen pathmap.length settings) 0), settings.hashVersion⟩
  else initTruncatedLargeFilter settings.hashVersion

/-- `(int)value` of a 32-bit word -/
def toInt32 (value : UInt32) : Int := if value.toNat < 2 ^ 31 then value.toNat else value.toNat - 2 ^ 32

structure RepoSettings where
  maxAllowedTreeDepth : Nat
  isSubmoduleIgnored : List UInt8 → Bool
  upgradeBloomFilters : Bool

structure Commit where
  tree : Oid
  parentTree : Option Oid

def diffOptionsOf (r : RepoSettings) (settings : BloomFilterSettings) : DiffOptions :=
  ⟨toInt32 settings.maxChangedPaths, r.maxAllowedTreeDepth, r.isSubmoduleIgnored⟩

def computeBloomFilter (s : ObjectStore) (r : RepoSettings) (c : Commit) (settings : BloomFilterSettings) :
    Option BloomFilter :=
  (diffTreeOid s (diffOptionsOf r settings) c.parentTree c.tree).map (filterOfQueue · settings)

/-- The visited trees, each with its `HIGH_BITS` flag. -/
abbrev TreeFlags := List (Oid × Bool)

def entriesHaveHighBit (visit : Oid → TreeFlags → Bool × TreeFlags) : List TreeEntry → TreeFlags → Bool × TreeFlags
  | [], flags => (false, flags)
  | e :: rest, flags =>
    if e.path.any (0x80 ≤ ·) then (true, flags)
    else if isDir e.mode then
      if (visit e.oid flags).1 then (true, (visit e.oid flags).2)
      else entriesHaveHighBit visit rest (visit e.oid flags).2
    else entriesHaveHighBit visit rest flags

def hasEntriesWithHighBit (s : ObjectStore) : Nat → Oid → TreeFlags → Bool × TreeFlags
  | 0, _, flags => (true, flags)
  | levels + 1, oid, flags =>
    match s.readTree oid with
    | none => (true, flags)
    | some es =>
      match flags.lookup oid with
      | some high => (high, flags)
      | none =>
        let (high, flags) := entriesHaveHighBit (hasEntriesWithHighBit s levels) es flags
        (high, (oid, high) :: flags)

def commitTreeHasHighBitPaths (s : ObjectStore) (tree : Oid) (flags : TreeFlags) : Bool × TreeFlags :=
  hasEntriesWithHighBit s (s.depth tree + 1) tree flags

def upgradeFilter (s : ObjectStore) (c : Commit) (filter : BloomFilter) (hashVersion : UInt32) (flags : TreeFlags) :
    Option BloomFilter × TreeFlags :=
  let (high, flags) := commitTreeHasHighBitPaths s c.tree flags
  if high then (none, flags)
  else
    match c.parentTree with
    | none => (some { filter with version := hashVersion }, flags)
    | some p =>
      let (high, flags) := commitTreeHasHighBitPaths s p flags
      if high then (none, flags) else (some { filter with version := hashVersion }, flags)

/-- The part of `get_or_compute_bloom_filter` behind the look at what was there. -/
def computeIfNotPresent (s : ObjectStore) (r : RepoSettings) (c : Commit) (wanted : Bool)
    (settings : BloomFilterSettings) (flags : TreeFlags) : Option (Option BloomFilter × TreeFlags) :=
  if wanted then (computeBloomFilter s r c settings).map fun filter => (some filter, flags)
  else some (none, flags)

/-- `get_or_compute_bloom_filter` when `loaded` is what the slab or the commit-graph holds, with
the flags that the trees have afterwards; nothing where it dies. -/
def getOrComputeBloomFilter (s : ObjectStore) (r : RepoSettings) (c : Commit) (loaded : Option BloomFilter)
    (wanted : Bool) (settings : BloomFilterSettings) (flags : TreeFlags) :
    Option (Option BloomFilter × TreeFlags) :=
  match loaded with
  | none => computeIfNotPresent s r c wanted settings flags
  | some filter =>
    if filter.data = [] then computeIfNotPresent s r c wanted settings flags
    else if settings.hashVersion = filter.version then some (some filter, flags)
    else if wanted ∧ r.upgradeBloomFilters then
      match upgradeFilter s c filter settings.hashVersion flags with
      | (some filter, flags) => some (some filter, flags)
      | (none, flags) => computeIfNotPresent s r c wanted settings flags
    else computeIfNotPresent s r c wanted settings flags

end GitCore.Bloom

/-!
# No changed path is missed

A filter holds the keys of every changed path and of its leading directories, whether it was just
computed, was cut off as too large, or comes from another version of the hash.
-/

namespace GitCore.Bloom

open Index (slash)
open Trees (TreeEntry isDir)

section Paths

variable {path d : List UInt8}

lemma cutLastSlash_append {rest : List UInt8} (h : slash ∉ rest) : cutLastSlash (d ++ slash :: rest) = d := by
  have hdrop : (d ++ slash :: rest).reverse.dropWhile (· ≠ slash) = slash :: d.reverse := by
    have hrest : ∀ c ∈ rest.reverse, decide (c ≠ slash) = true := by
      intro c hc
      rw [decide_eq_true_eq]
      rintro rfl
      exact h (List.mem_reverse.mp hc)
    rw [List.reverse_append, List.reverse_cons, List.append_assoc, List.dropWhile_append_of_pos hrest]
    exact List.dropWhile_cons_of_neg (by simp)
  rw [cutLastSlash, hdrop, List.drop_one, List.tail_cons, List.reverse_reverse]

lemma exists_last_slash (h : slash ∈ path) : ∃ s t, path = s ++ slash :: t ∧ slash ∉ t := by
  obtain ⟨s, t, heq, hnot⟩ := List.eq_append_cons_of_mem (List.mem_reverse.mpr h)
  refine ⟨t.reverse, s.reverse, ?_, by simpa using hnot⟩
  rw [← List.reverse_reverse path, heq]
  simp

lemma leadingDir_cut (h : LeadingDir slash d path) :
    (d = cutLastSlash path ∨ LeadingDir slash d (cutLastSlash path)) ∧ (cutLastSlash path).length < path.length := by
  obtain ⟨rest, rfl⟩ := h
  by_cases hmem : slash ∈ rest
  · obtain ⟨s, t, rfl, ht⟩ := exists_last_slash hmem
    have hcut : cutLastSlash (d ++ [slash] ++ (s ++ slash :: t)) = d ++ [slash] ++ s := by
      rw [← List.append_assoc]
      exact cutLastSlash_append ht
    rw [hcut]
    exact ⟨.inr (List.prefix_append _ s), by simp⟩
  · have hcut : cutLastSlash (d ++ [slash] ++ rest) = d := by
      rw [List.append_assoc]
      exact cutLastSlash_append hmem
    rw [hcut]
    exact ⟨.inl rfl, by simp⟩

lemma self_mem_leadingPaths (n : Nat) (path : List UInt8) : path ∈ leadingPaths n path := by
  cases n with
  | zero => exact List.mem_singleton_self path
  | succ n =>
    rw [leadingPaths]
    split
    · exact List.mem_singleton_self path
    · exact List.mem_cons_self

lemma mem_leadingPaths {n : Nat} (h : LeadingDir slash d path) (hd : d ≠ []) (hn : path.length ≤ n) :
    d ∈ leadingPaths n path := by
  induction n generalizing path with
  | zero =>
    have := h.length_lt
    omega
  | succ n ih =>
    obtain ⟨hcut, hlt⟩ := leadingDir_cut h
    have hne : cutLastSlash path ≠ [] := by
      intro hnil
      rw [hnil] at hcut
      rcases hcut with rfl | hcut
      · exact hd rfl
      · exact absurd hcut.length_lt (Nat.not_lt_zero _)
    rw [leadingPaths, if_neg hne]
    refine List.mem_cons_of_mem _ ?_
    rcases hcut with rfl | hcut
    · exact self_mem_leadingPaths n _
    · exact ih hcut (by omega)

lemma mem_foldl_addPath {paths pathmap : List (List UInt8)} :
    path ∈ paths.foldl addPath pathmap ↔ path ∈ pathmap ∨ path ∈ paths := by
  induction paths generalizing pathmap with
  | nil => simp
  | cons p paths ih =>
    have hadd : path ∈ addPath pathmap p ↔ path ∈ pathmap ∨ path = p := by
      unfold addPath
      split
      · exact ⟨.inl, fun h => h.elim id fun h => h ▸ ‹_›⟩
      · rw [List.mem_cons, or_comm]
    rw [List.foldl_cons, ih, hadd, List.mem_cons, or_assoc]

lemma mem_pathmapOf {queue : List (List UInt8)} {q : List UInt8} (hq : q ∈ queue)
    (h : path = q ∨ (LeadingDir slash path q ∧ path ≠ [])) : path ∈ pathmapOf queue := by
  refine mem_foldl_addPath.mpr (.inr (List.mem_flatMap.mpr ⟨q, hq, ?_⟩))
  rcases h with rfl | ⟨hlead, hne⟩
  · exact self_mem_leadingPaths _ _
  · exact mem_leadingPaths hlead hne le_rfl

end Paths

section Bits

def Holds (filter : BloomFilter) (key : List UInt32) : Prop :=
  filter.data ≠ [] ∧ ∀ hash ∈ key, hash.toNat % (filter.data.length * 8) ∈ bitSet filter.data

lemma length_addKeyToFilter (key : List UInt32) (data : List UInt8) :
    (addKeyToFilter key data).length = data.length := length_foldl_setBit _ _

lemma bitSet_addKeyToFilter (key : List UInt32) {data : List UInt8} (h : data ≠ []) :
    bitSet (addKeyToFilter key data) =
      bitSet data ∪ {pos | pos ∈ key.map fun hash => hash.toNat % (data.length * 8)} := by
  have hlen : 0 < data.length := List.length_pos_iff.mpr h
  refine bitSet_foldl_setBit fun pos hpos => ?_
  obtain ⟨hash, -, rfl⟩ := List.mem_map.mp hpos
  exact Nat.mod_lt _ (by omega)

lemma bitSet_foldl_addKey (keys : List (List UInt32)) {data : List UInt8} (h : data ≠ []) :
    (keys.foldl (fun data key => addKeyToFilter key data) data).length = data.length ∧
      ∀ pos, pos ∈ bitSet (keys.foldl (fun data key => addKeyToFilter key data) data) ↔
        pos ∈ bitSet data ∨ ∃ key ∈ keys, ∃ hash ∈ key, hash.toNat % (data.length * 8) = pos := by
  induction keys generalizing data with
  | nil => simp
  | cons key keys ih =>
    have hlen : (addKeyToFilter key data).length = data.length := length_addKeyToFilter key data
    have hne : addKeyToFilter key data ≠ [] := by
      rwa [← List.length_pos_iff, hlen, List.length_pos_iff]
    obtain ⟨hkept, hbits⟩ := ih hne
    rw [List.foldl_cons]
    refine ⟨hkept.trans hlen, fun pos => ?_⟩
    rw [hbits pos, hlen, bitSet_addKeyToFilter key h]
    simp only [Set.mem_union, Set.mem_ofPred_eq, List.mem_map, List.exists_mem_cons_iff, or_assoc]

variable {filter : BloomFilter}

lemma bloomFilterContains_of_holds {key : List UInt32} (h : Holds filter key) :
    bloomFilterContains filter key = 1 := by
  have hlen : 0 < filter.data.length := List.length_pos_iff.mpr h.1
  rw [bloomFilterContains, if_neg (by omega), if_pos]
  exact List.all_eq_true.mpr h.2

lemma bloomFilterContainsVec_of_holds {vec : List (List UInt32)}
    (h : ∀ key ∈ vec, Holds filter key) : bloomFilterContainsVec filter vec = 1 := by
  unfold bloomFilterContainsVec
  induction vec with
  | nil => rfl
  | cons key vec ih =>
    rw [containsVecFrom, if_pos Int.one_pos, bloomFilterContains_of_holds (h key List.mem_cons_self)]
    exact ih fun key hkey => h key (List.mem_cons_of_mem _ hkey)

lemma holds_truncated (version : UInt32) (key : List UInt32) : Holds (initTruncatedLargeFilter version) key := by
  refine ⟨List.cons_ne_nil _ _, fun hash _ => ?_⟩
  have hall : ∀ pos : Fin 8, hasBit [0xff] pos.val = true := by decide
  exact hall ⟨hash.toNat % 8, Nat.mod_lt _ (by decide)⟩

lemma filterLen_pos (size : Nat) (settings : BloomFilterSettings) : 0 < filterLen size settings := by
  unfold filterLen
  dsimp only
  split
  · exact Nat.one_pos
  · rename_i hne
    exact Nat.pos_of_ne_zero fun h => hne (UInt32.toNat_inj.mp h)

/-- What a filter holds for a changed path: its key and those of its leading directories. -/
def Covers (filter : BloomFilter) (settings : BloomFilterSettings) (q : List UInt8) : Prop :=
  ∀ path, path = q ∨ (LeadingDir slash path q ∧ path ≠ []) → Holds filter (bloomKeyFill path settings)

lemma covers_filterOfQueue {queue : List (List UInt8)} {settings : BloomFilterSettings} {q : List UInt8}
    (h : settings.maxChangedPaths.toNat < queue.length ∨ q ∈ queue) :
    Covers (filterOfQueue queue settings) settings q := by
  intro path hpath
  unfold filterOfQueue
  dsimp only
  by_cases hmany : queue.length ≤ settings.maxChangedPaths.toNat
  · rw [if_pos hmany]
    by_cases hsize : settings.maxChangedPaths.toNat < (pathmapOf queue).length
    · rw [if_pos hsize]
      exact holds_truncated _ _
    · rw [if_neg hsize]
      have hq : q ∈ queue := h.resolve_left (not_lt.mpr hmany)
      have hmem : bloomKeyFill path settings ∈ (pathmapOf queue).map (bloomKeyFill · settings) :=
        List.mem_map_of_mem (mem_pathmapOf hq hpath)
      have hpos := filterLen_pos (pathmapOf queue).length settings
      have hne : List.replicate (filterLen (pathmapOf queue).length settings) (0 : UInt8) ≠ [] := by
        rw [Ne, List.replicate_eq_nil_iff]
        omega
      obtain ⟨hlen, hbits⟩ := bitSet_foldl_addKey ((pathmapOf queue).map (bloomKeyFill · settings)) hne
      constructor
      · rw [← List.length_pos_iff, hlen, List.length_pos_iff]
        exact hne
      · intro hash hhash
        rw [hlen]
        exact (hbits _).mpr (.inr ⟨_, hmem, hash, hhash, rfl⟩)
  · rw [if_neg hmany]
    exact holds_truncated _ _

lemma containsVec_of_covers {settings : BloomFilterSettings} {path q : List UInt8}
    (hcovers : Covers filter settings q) (hhead : q.head? ≠ some slash) (hpath : path = q ∨ LeadingDir slash path q)
    (hne : path ≠ []) :
    ∃ vec, bloomKeyvecNew path settings = some vec ∧ bloomFilterContainsVec filter vec ≠ 0 := by
  have hpre : path <+: q := by
    rcases hpath with rfl | h
    · exact List.prefix_rfl
    · exact h.isPrefix
  have hhead' : path.head? ≠ some slash := by
    obtain ⟨c, rest, rfl⟩ := List.exists_cons_of_ne_nil hne
    obtain ⟨t, rfl⟩ := hpre
    exact hhead
  refine ⟨_, bloomKeyvecNew_eq settings hne hhead', ?_⟩
  rw [bloomFilterContainsVec_of_holds]
  · exact Int.one_ne_zero
  · intro key hkey
    rcases List.mem_cons.mp hkey with rfl | hkey
    · exact hcovers path (hpath.imp_right fun h => ⟨h, hne⟩)
    · obtain ⟨p, hpos, -, hget, rfl⟩ := mem_keysBelow.mp hkey
      have hp : p < path.length := by
        by_contra hge
        rw [List.getElem?_eq_none (by omega)] at hget
        cases hget
      have hlen : (path.take p).length = p := by
        rw [List.length_take]
        omega
      have hlead : LeadingDir slash (path.take p) path := by
        refine leadingDir_iff.mpr ⟨List.take_prefix p path, ?_⟩
        rw [hlen, hget]
      refine hcovers _ (.inr ⟨List.IsPrefix.trans hlead hpre, ?_⟩)
      rw [← List.length_pos_iff, hlen]
      exact hpos

end Bits

section HighBits

variable {s : ObjectStore}

def PlainNames (s : ObjectStore) (es : List TreeEntry) : Prop :=
  ∀ path mode oid, Leaf s es path mode oid → NoHighBit path

def FlagsSound (s : ObjectStore) (flags : TreeFlags) : Prop :=
  ∀ oid es, flags.lookup oid = some false → s.readTree oid = some es → PlainNames s es

lemma noHighBit_slash : (slash : UInt8) < 0x80 := by decide

lemma plainNames_cons {e : TreeEntry} {es : List TreeEntry} (hname : NoHighBit e.path)
    (hsub : isDir e.mode = true → ∀ sub, s.readTree e.oid = some sub → PlainNames s sub) (hes : PlainNames s es) :
    PlainNames s (e :: es) := by
  intro path mode oid h
  rcases leaf_cons.mp h with h | h
  · obtain ⟨hmem, -⟩ | ⟨hmem, hdir, hread, hleaf⟩ := h <;> obtain rfl := List.mem_singleton.mp hmem
    · exact hname
    · intro c hc
      rcases List.mem_append.mp hc with hc | hc
      · exact hname c hc
      rcases List.mem_cons.mp hc with rfl | hc
      · exact noHighBit_slash
      · exact hsub hdir _ hread _ _ _ hleaf c hc
  · exact hes path mode oid h

def GoodVisit (s : ObjectStore) (visit : Oid → TreeFlags → Bool × TreeFlags) : Prop :=
  ∀ oid flags, FlagsSound s flags → FlagsSound s (visit oid flags).2 ∧
    ((visit oid flags).1 = false → ∃ es, s.readTree oid = some es ∧ PlainNames s es)

lemma entriesHaveHighBit_sound {visit : Oid → TreeFlags → Bool × TreeFlags} (hvisit : GoodVisit s visit)
    (es : List TreeEntry) {flags : TreeFlags} (h : FlagsSound s flags) :
    FlagsSound s (entriesHaveHighBit visit es flags).2 ∧
      ((entriesHaveHighBit visit es flags).1 = false → PlainNames s es) := by
  induction es generalizing flags with
  | nil => exact ⟨h, fun _ path mode oid hleaf => absurd hleaf not_leaf_nil⟩
  | cons e es ih =>
    rw [entriesHaveHighBit]
    by_cases hname : e.path.any (0x80 ≤ ·) = true
    · rw [if_pos hname]
      exact ⟨h, fun hfalse => nomatch hfalse⟩
    have hplain : NoHighBit e.path := by
      intro c hc
      by_contra hge
      exact hname (List.any_eq_true.mpr ⟨c, hc, by simpa using hge⟩)
    rw [if_neg hname]
    by_cases hdir : isDir e.mode = true
    · rw [if_pos hdir]
      obtain ⟨hflags, hsub⟩ := hvisit e.oid flags h
      by_cases hhigh : (visit e.oid flags).1 = true
      · rw [if_pos hhigh]
        exact ⟨hflags, fun hfalse => nomatch hfalse⟩
      · rw [if_neg hhigh]
        obtain ⟨hrest, hes⟩ := ih hflags
        obtain ⟨sub, hread, hnames⟩ := hsub (Bool.eq_false_iff.mpr hhigh)
        refine ⟨hrest, fun hfalse => plainNames_cons hplain (fun _ sub' hread' => ?_) (hes hfalse)⟩
        obtain rfl := Option.some.inj (hread.symm.trans hread')
        exact hnames
    · rw [if_neg hdir]
      obtain ⟨hrest, hes⟩ := ih h
      exact ⟨hrest, fun hfalse => plainNames_cons hplain (fun hd => absurd hd hdir) (hes hfalse)⟩

lemma goodVisit_hasEntriesWithHighBit (s : ObjectStore) (levels : Nat) : GoodVisit s (hasEntriesWithHighBit s levels) := by
  induction levels with
  | zero => exact fun oid flags h => ⟨h, fun hfalse => nomatch hfalse⟩
  | succ levels ih =>
    intro oid flags h
    rw [hasEntriesWithHighBit]
    cases hread : s.readTree oid with
    | none => exact ⟨h, fun hfalse => nomatch hfalse⟩
    | some es =>
      dsimp only
      cases hlook : flags.lookup oid with
      | some high =>
        refine ⟨h, fun hfalse => ⟨es, rfl, h oid es ?_ hread⟩⟩
        rw [hlook]
        exact congrArg some hfalse
      | none =>
        obtain ⟨hflags, hes⟩ := entriesHaveHighBit_sound ih es h
        refine ⟨fun oid' es' hlook' hread' => ?_, fun hfalse => ⟨es, rfl, hes hfalse⟩⟩
        dsimp only at hlook'
        rw [List.lookup_cons] at hlook'
        split at hlook'
        · rename_i heq
          obtain rfl := eq_of_beq heq
          obtain rfl := Option.some.inj (hread.symm.trans hread')
          exact hes (Option.some.inj hlook')
        · exact hflags oid' es' hlook' hread'

end HighBits

section Runs

variable {s : ObjectStore} {r : RepoSettings} {c : Commit} {settings : BloomFilterSettings}

inductive ReachedFlags (s : ObjectStore) : TreeFlags → Prop
  | start : ReachedFlags s []
  | visit {flags : TreeFlags} (tree : Oid) (h : ReachedFlags s flags) :
      ReachedFlags s (commitTreeHasHighBitPaths s tree flags).2

lemma ReachedFlags.sound {flags : TreeFlags} (h : ReachedFlags s flags) : FlagsSound s flags := by
  induction h with
  | start => exact fun oid es hlook => nomatch hlook
  | visit tree _ ih => exact (goodVisit_hasEntriesWithHighBit s _ tree _ ih).1

/-- Settings that share their hashes and sizes with the given ones, with a limit that an `int` holds. -/
structure Compatible (settings t : BloomFilterSettings) : Prop where
  numHashes : t.numHashes = settings.numHashes
  bitsPerEntry : t.bitsPerEntry = settings.bitsPerEntry
  maxChangedPaths : t.maxChangedPaths.toNat < 2 ^ 31

/-- The filters of a commit: computed when none was loaded, or made of one that was, under
settings that may differ in the version of the hash and the limit. -/
inductive FilterOf (s : ObjectStore) (r : RepoSettings) (c : Commit) (settings : BloomFilterSettings) :
    BloomFilterSettings → BloomFilter → Prop
  | fresh {t : BloomFilterSettings} {loaded : Option BloomFilter} {wanted : Bool} {flags flags' : TreeFlags}
      {filter : BloomFilter} (ht : Compatible settings t) (hflags : ReachedFlags s flags)
      (hloaded : ∀ f ∈ loaded, f.data = [])
      (h : getOrComputeBloomFilter s r c loaded wanted t flags = some (some filter, flags')) :
      FilterOf s r c settings t filter
  | again {t t' : BloomFilterSettings} {old filter : BloomFilter} {wanted : Bool} {flags flags' : TreeFlags}
      (hold : FilterOf s r c settings t' old) (ht : Compatible settings t) (hflags : ReachedFlags s flags)
      (h : getOrComputeBloomFilter s r c (some old) wanted t flags = some (some filter, flags')) :
      FilterOf s r c settings t filter

/-- A file, link or submodule that is not ignored, on one side of the commit's diff only. -/
def ChangedLeaf (s : ObjectStore) (r : RepoSettings) (c : Commit) (q : List UInt8) : Prop :=
  ∃ es ps mode oid, s.readTree c.tree = some es ∧ fillTreeDescriptor s c.parentTree = some ps ∧
    OnOneSide s es ps q mode oid ∧ ¬ (isGitlink mode = true ∧ r.isSubmoduleIgnored q = true)

lemma toInt32_of_lt {value : UInt32} (h : value.toNat < 2 ^ 31) : toInt32 value = value.toNat := if_pos h

lemma covers_computeBloomFilter (hmax : settings.maxChangedPaths.toNat < 2 ^ 31)
    (h : computeBloomFilter s r c settings = some filter) {q : List UInt8} (hq : ChangedLeaf s r c q) :
    Covers filter settings q := by
  obtain ⟨queue, hqueue, rfl⟩ := Option.map_eq_some_iff.mp h
  obtain ⟨es, ps, hes, hps, hfound⟩ := diffTreeOid_found hqueue
  obtain ⟨es', ps', mode, oid, hes', hps', hside, hconsidered⟩ := hq
  obtain rfl := Option.some.inj (hes.symm.trans hes')
  obtain rfl := Option.some.inj (hps.symm.trans hps')
  refine covers_filterOfQueue (hfound.imp (fun hmany => ?_) fun hfound => hfound q mode oid hconsidered hside)
  simp only [tooMany, diffOptionsOf, toInt32_of_lt hmax, decide_eq_true_eq] at hmany
  omega

lemma noHighBit_of_changed {q : List UInt8} (hq : ChangedLeaf s r c q)
    (htree : ∃ es, s.readTree c.tree = some es ∧ PlainNames s es)
    (hparent : ∀ p ∈ c.parentTree, ∃ ps, s.readTree p = some ps ∧ PlainNames s ps) : NoHighBit q := by
  obtain ⟨es, ps, mode, oid, hes, hps, hside, -⟩ := hq
  rcases hside with ⟨h, -⟩ | ⟨h, -⟩
  · obtain ⟨es', hes', hnames⟩ := htree
    obtain rfl := Option.some.inj (hes.symm.trans hes')
    exact hnames _ _ _ h
  · cases hp : c.parentTree with
    | none =>
      rw [hp] at hps
      obtain rfl := Option.some.inj hps
      exact absurd h not_leaf_nil
    | some p =>
      rw [hp] at hps
      obtain ⟨ps', hps', hnames⟩ := hparent p hp
      obtain rfl := Option.some.inj (Eq.trans (Eq.symm hps) hps')
      exact hnames _ _ _ h

lemma upgradeFilter_some {filter filter' : BloomFilter} {version : UInt32} {flags : TreeFlags}
    (hflags : FlagsSound s flags) (h : (upgradeFilter s c filter version flags).1 = some filter') :
    filter' = ⟨filter.data, version⟩ ∧ (∃ es, s.readTree c.tree = some es ∧ PlainNames s es) ∧
      ∀ p ∈ c.parentTree, ∃ ps, s.readTree p = some ps ∧ PlainNames s ps := by
  obtain ⟨hkept, htree⟩ := goodVisit_hasEntriesWithHighBit s (s.depth c.tree + 1) c.tree flags hflags
  unfold upgradeFilter commitTreeHasHighBitPaths at h
  dsimp only at h
  split at h
  · cases h
  rename_i hhigh
  have htree := htree (Bool.eq_false_iff.mpr hhigh)
  cases hp : c.parentTree with
  | none =>
    rw [hp] at h
    obtain rfl := Option.some.inj h
    exact ⟨rfl, htree, fun p hp => nomatch hp⟩
  | some p =>
    rw [hp] at h
    dsimp only at h
    split at h
    · cases h
    rename_i hhigh'
    obtain rfl := Option.some.inj h
    refine ⟨rfl, htree, fun p' hp' => ?_⟩
    obtain rfl := Option.some.inj hp'
    exact (goodVisit_hasEntriesWithHighBit s (s.depth p + 1) p _ hkept).2 (Bool.eq_false_iff.mpr hhigh')

lemma Covers.of_keys {filter filter' : BloomFilter} {t t' : BloomFilterSettings} {q : List UInt8}
    (h : Covers filter t q) (hdata : filter'.data = filter.data)
    (hkeys : ∀ path, path <+: q → bloomKeyFill path t = bloomKeyFill path t') : Covers filter' t' q := by
  intro path hpath
  have hpre : path <+: q := hpath.elim (fun h => h ▸ List.prefix_rfl) fun h => h.1.isPrefix
  have hholds := h path hpath
  rw [hkeys path hpre] at hholds
  unfold Holds at hholds ⊢
  rw [hdata]
  exact hholds

lemma bloomKeyFill_congr {t t' : BloomFilterSettings} (hversion : t.hashVersion = t'.hashVersion)
    (hnum : t.numHashes = t'.numHashes) (data : List UInt8) : bloomKeyFill data t = bloomKeyFill data t' := by
  unfold bloomKeyFill
  rw [hversion, hnum]

lemma computeIfNotPresent_some {wanted : Bool} {flags flags' : TreeFlags} {filter : BloomFilter}
    (h : computeIfNotPresent s r c wanted settings flags = some (some filter, flags')) :
    computeBloomFilter s r c settings = some filter := by
  unfold computeIfNotPresent at h
  split at h
  · obtain ⟨f, hf, heq⟩ := Option.map_eq_some_iff.mp h
    obtain rfl := Option.some.inj (Prod.mk.inj heq).1
    exact hf
  · cases h

lemma getOrCompute_cases {loaded : Option BloomFilter} {wanted : Bool} {flags flags' : TreeFlags} {filter : BloomFilter}
    (h : getOrComputeBloomFilter s r c loaded wanted settings flags = some (some filter, flags')) :
    computeBloomFilter s r c settings = some filter ∨
      ∃ old ∈ loaded, old.data ≠ [] ∧ ((settings.hashVersion = old.version ∧ filter = old) ∨
        (upgradeFilter s c old settings.hashVersion flags).1 = some filter) := by
  cases loaded with
  | none => exact .inl (computeIfNotPresent_some h)
  | some old =>
    rw [getOrComputeBloomFilter] at h
    split at h
    · exact .inl (computeIfNotPresent_some h)
    rename_i hdata
    split at h
    · rename_i hversion
      obtain rfl := Option.some.inj (Prod.mk.inj (Option.some.inj h)).1
      exact .inr ⟨_, rfl, hdata, .inl ⟨hversion, rfl⟩⟩
    split at h
    · cases hup : upgradeFilter s c old settings.hashVersion flags with
      | mk result flags₁ =>
        rw [hup] at h
        cases result with
        | none => exact .inl (computeIfNotPresent_some h)
        | some f =>
          obtain rfl := Option.some.inj (Prod.mk.inj (Option.some.inj h)).1
          exact .inr ⟨old, rfl, hdata, .inr (by rw [hup])⟩
    · exact .inl (computeIfNotPresent_some h)

lemma version_computeBloomFilter (h : computeBloomFilter s r c settings = some filter) :
    filter.version = settings.hashVersion := by
  obtain ⟨queue, -, rfl⟩ := Option.map_eq_some_iff.mp h
  unfold filterOfQueue
  split
  · dsimp only
    split <;> rfl
  · rfl

lemma FilterOf.compatible {t : BloomFilterSettings} {filter : BloomFilter} (h : FilterOf s r c settings t filter) :
    Compatible settings t := by
  cases h with
  | fresh ht => exact ht
  | again _ ht => exact ht

lemma FilterOf.covers {t : BloomFilterSettings} {filter : BloomFilter} (h : FilterOf s r c settings t filter)
    {q : List UInt8} (hq : ChangedLeaf s r c q) : filter.version = t.hashVersion ∧ Covers filter t q := by
  induction h with
  | fresh ht hflags hloaded h =>
    rcases getOrCompute_cases h with hcompute | ⟨old, hold, hdata, -⟩
    · exact ⟨version_computeBloomFilter hcompute, covers_computeBloomFilter ht.maxChangedPaths hcompute hq⟩
    · exact absurd (hloaded old hold) hdata
  | @again t t' old filter wanted flags flags' hold ht hflags h ih =>
    obtain ⟨hversion, hcovers⟩ := ih
    have hnum : t'.numHashes = t.numHashes := hold.compatible.numHashes.trans ht.numHashes.symm
    rcases getOrCompute_cases h with hcompute | ⟨old', hold', -, ⟨hsame, rfl⟩ | hup⟩
    · exact ⟨version_computeBloomFilter hcompute, covers_computeBloomFilter ht.maxChangedPaths hcompute hq⟩
    · obtain rfl := Option.some.inj hold'
      refine ⟨hsame.symm, hcovers.of_keys rfl fun path _ => ?_⟩
      exact bloomKeyFill_congr (hversion.symm.trans hsame.symm) hnum path
    · obtain rfl := Option.some.inj hold'
      obtain ⟨rfl, htree, hparent⟩ := upgradeFilter_some hflags.sound hup
      have hplain := noHighBit_of_changed hq htree hparent
      exact ⟨rfl, hcovers.of_keys rfl fun path hpre =>
        bloomKeyFill_version (fun b hb => hplain b (hpre.subset hb)) hnum⟩

lemma Leaf.head {es : List TreeEntry} {path : List UInt8} {mode : Nat} {oid : Oid} (h : Leaf s es path mode oid)
    (hes : ∃ root, fillTreeDescriptor s root = some es) : path ≠ [] ∧ path.head? ≠ some slash := by
  obtain ⟨root, hroot⟩ := hes
  have hname : ∀ e ∈ es, e.path ≠ [] ∧ slash ∉ e.path := by
    intro e he
    cases root with
    | none =>
      obtain rfl := Option.some.inj hroot
      cases he
    | some oid => exact ⟨(s.name_ok hroot he).1, (s.name_ok hroot he).2.1⟩
  have hcons : ∀ e ∈ es, ∀ rest, e.path ++ rest ≠ [] ∧ (e.path ++ rest).head? ≠ some slash := by
    intro e he rest
    obtain ⟨hne, hnot⟩ := hname e he
    obtain ⟨b, name, heq⟩ := List.exists_cons_of_ne_nil hne
    rw [heq] at hnot ⊢
    refine ⟨List.cons_ne_nil _ _, fun h => hnot ?_⟩
    obtain rfl := Option.some.inj h
    exact List.mem_cons_self
  cases h with
  | file hmem => simpa using hcons _ hmem []
  | inDir hmem => exact hcons _ hmem _

/-- No path at or above a changed leaf is missed by a query. -/
theorem filterContainsVec_spec {t : BloomFilterSettings} {filter : BloomFilter}
    (h : FilterOf s r c settings t filter) {q path : List UInt8} (hq : ChangedLeaf s r c q)
    (hpath : path = q ∨ LeadingDir slash path q) :
    ∃ vec, bloomKeyvecNew path t = some vec ∧ bloomFilterContainsVec filter vec ≠ 0 := by
  have hhead : q ≠ [] ∧ q.head? ≠ some slash := by
    obtain ⟨es, ps, mode, oid, hes, hps, ⟨hleaf, -⟩ | ⟨hleaf, -⟩, -⟩ := hq
    · exact hleaf.head ⟨some c.tree, hes⟩
    · exact hleaf.head ⟨c.parentTree, hps⟩
  have hne : path ≠ [] := by
    rcases hpath with rfl | hlead
    · exact hhead.1
    · rintro rfl
      obtain ⟨rest, rfl⟩ := hlead
      exact hhead.2 rfl
  exact containsVec_of_covers (h.covers hq).2 hhead.2 hpath hne

/-- Trees for runs on fixed inputs: a file, a submodule, and a directory without files. -/
def sampleTree (oid : Oid) : Option (List TreeEntry) :=
  if oid = [1] then some [⟨[0x61], 0o100644, [9]⟩]
  else if oid = [2] then some [⟨[0x73], 0o160000, [8]⟩]
  else if oid = [3] then some [⟨[0x64], 0o040000, [4]⟩]
  else if oid = [4] then some []
  else none

lemma sampleTree_entry {oid : Oid} {es : List TreeEntry} {e : TreeEntry} (h : sampleTree oid = some es) (he : e ∈ es) :
    e.path ≠ [] ∧ slash ∉ e.path ∧ (0 : UInt8) ∉ e.path ∧ e.mode ≠ 0 ∧
      (isDir e.mode = true → e.oid = [4] ∧ oid = [3]) := by
  unfold sampleTree at h
  split_ifs at h with h₁ h₂ h₃ h₄ <;> obtain rfl := Option.some.inj h
  · obtain rfl := List.mem_singleton.mp he
    subst h₁
    decide
  · obtain rfl := List.mem_singleton.mp he
    subst h₂
    decide
  · obtain rfl := List.mem_singleton.mp he
    exact ⟨by decide, by decide, by decide, by decide, fun _ => ⟨rfl, h₃⟩⟩
  · cases he

def sampleStore : ObjectStore where
  readTree := sampleTree
  depth oid := if oid = [3] then 1 else 0
  depth_lt h he hdir := by
    obtain ⟨hsub, rfl⟩ := (sampleTree_entry h he).2.2.2.2 hdir
    rw [hsub]
    decide
  name_ok h he := ⟨(sampleTree_entry h he).1, (sampleTree_entry h he).2.1, (sampleTree_entry h he).2.2.1⟩
  mode_ne h he := (sampleTree_entry h he).2.2.2.1

def sampleSettings : BloomFilterSettings := ⟨2, 7, 10, 512⟩

theorem filterContainsVec_spec_sample :
    ∃ filter vec, computeBloomFilter sampleStore ⟨4, fun _ => false, true⟩ ⟨[1], none⟩ sampleSettings = some filter ∧
      bloomKeyvecNew [0x61] sampleSettings = some vec ∧ bloomFilterContainsVec filter vec ≠ 0 := by
  have hcompute : computeBloomFilter sampleStore ⟨4, fun _ => false, true⟩ ⟨[1], none⟩ sampleSettings =
      some (filterOfQueue [[0x61]] sampleSettings) := by
    have hlimit : toInt32 sampleSettings.maxChangedPaths = 512 := rfl
    simp [computeBloomFilter, diffTreeOid, llDiffTreePaths, fillTreeDescriptor, sampleStore, sampleTree, diffLoop,
      tooMany, diffOptionsOf, hlimit, emitPath, isDir, Trees.S_IFMT, Trees.S_IFDIR, queuePair, isGitlink, S_IFGITLINK]
  have hfilter : FilterOf sampleStore ⟨4, fun _ => false, true⟩ ⟨[1], none⟩ sampleSettings sampleSettings
      (filterOfQueue [[0x61]] sampleSettings) := by
    refine @FilterOf.fresh _ _ _ _ _ none true [] [] _ ⟨rfl, rfl, by decide⟩ .start (fun f hf => absurd hf (Option.some_ne_none f).symm) ?_
    rw [getOrComputeBloomFilter, computeIfNotPresent, if_pos rfl, hcompute]
    exact rfl
  have hleaf : ChangedLeaf sampleStore ⟨4, fun _ => false, true⟩ ⟨[1], none⟩ [0x61] :=
    ⟨_, _, 0o100644, [9], rfl, rfl, .inl ⟨.file List.mem_cons_self rfl, not_leaf_nil⟩, by decide⟩
  obtain ⟨vec, hvec, hne⟩ := filterContainsVec_spec hfilter hleaf (.inl rfl)
  exact ⟨_, vec, hcompute, hvec, hne⟩

lemma bloomFilterContainsVec_empty {version hash : UInt32} {key : List UInt32} {vec : List (List UInt32)} :
    bloomFilterContainsVec ⟨[0], version⟩ ((hash :: key) :: vec) = 0 := by
  have hbit : hasBit [0] (hash.toNat % (1 * 8)) = false := by
    have hall : ∀ pos : Fin 8, hasBit [0] pos.val = false := by decide
    exact hall ⟨hash.toNat % 8, Nat.mod_lt _ (by decide)⟩
  have hzero : bloomFilterContains ⟨[0], version⟩ (hash :: key) = 0 := by
    rw [bloomFilterContains, if_neg (by simp), if_neg]
    rw [List.all_cons]
    exact ne_true_of_eq_false (by rw [List.length_singleton, hbit, Bool.false_and])
  rw [bloomFilterContainsVec, containsVecFrom, if_pos Int.one_pos, hzero]
  cases vec with
  | nil => rfl
  | cons key' vec => exact if_neg (lt_irrefl 0)

/-- In a root commit, an ignored submodule and a directory without files leave the filter empty; the
queries for them return 0. -/
theorem filterContainsVec_zero :
    (∃ filter vec, computeBloomFilter sampleStore ⟨4, fun path => path = [0x73], true⟩ ⟨[2], none⟩ sampleSettings =
        some filter ∧ bloomKeyvecNew [0x73] sampleSettings = some vec ∧ bloomFilterContainsVec filter vec = 0) ∧
      ∃ filter vec, computeBloomFilter sampleStore ⟨4, fun _ => false, true⟩ ⟨[3], none⟩ sampleSettings =
        some filter ∧ bloomKeyvecNew [0x64] sampleSettings = some vec ∧ bloomFilterContainsVec filter vec = 0 := by
  have hlimit : toInt32 sampleSettings.maxChangedPaths = 512 := rfl
  have hempty : filterOfQueue [] sampleSettings = ⟨[0], 2⟩ := by decide
  constructor
  · refine ⟨⟨[0], 2⟩, _, ?_, bloomKeyvecNew_eq sampleSettings (by decide) (by decide), bloomFilterContainsVec_empty⟩
    rw [← hempty]
    simp [computeBloomFilter, diffTreeOid, llDiffTreePaths, fillTreeDescriptor, sampleStore, sampleTree, diffLoop,
      tooMany, diffOptionsOf, hlimit, emitPath, isDir, Trees.S_IFMT, Trees.S_IFDIR, queuePair, isGitlink, S_IFGITLINK]
  · refine ⟨⟨[0], 2⟩, _, ?_, bloomKeyvecNew_eq sampleSettings (by decide) (by decide), bloomFilterContainsVec_empty⟩
    rw [← hempty]
    simp [computeBloomFilter, diffTreeOid, llDiffTreePaths, fillTreeDescriptor, sampleStore, sampleTree, diffLoop,
      tooMany, diffOptionsOf, hlimit, emitPath, isDir, Trees.S_IFMT, Trees.S_IFDIR]

end Runs

end GitCore.Bloom
