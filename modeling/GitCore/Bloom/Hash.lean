import GitCore.Index.Add

/-!
# The keys of changed-path Bloom filters

The two murmur3 variants of `bloom.c` differ in how a `char` becomes a 32-bit word: version 1 extends
its sign. They agree on bytes without the high bit.
-/

namespace GitCore.Bloom

open Index (slash)

structure BloomFilterSettings where
  hashVersion : UInt32
  numHashes : UInt32
  bitsPerEntry : UInt32
  maxChangedPaths : UInt32
  deriving DecidableEq

def rotateLeft (value count : UInt32) : UInt32 := value <<< (count &&& 31) ||| value >>> ((0 - count) &&& 31)

/-- `(uint32_t)(unsigned char)c` -/
def unsignedChar (c : UInt8) : UInt32 := c.toUInt32

/-- `(uint32_t)c` of a signed `char` -/
def signedChar (c : UInt8) : UInt32 := if c < 0x80 then c.toUInt32 else c.toUInt32 ||| 0xffffff00

def scramble (k : UInt32) : UInt32 := rotateLeft (k * 0xcc9e2d51) 15 * 0x1b873593

def blockWord (char : UInt8 → UInt32) (b1 b2 b3 b4 : UInt8) : UInt32 :=
  char b1 ||| char b2 <<< 8 ||| char b3 <<< 16 ||| char b4 <<< 24

@[irreducible] def murmur3Mix (seed k : UInt32) : UInt32 := rotateLeft (seed ^^^ scramble k) 13 * 5 + 0xe6546b64

def murmur3Blocks (char : UInt8 → UInt32) : UInt32 → List UInt8 → UInt32 × List UInt8
  | seed, b1 :: b2 :: b3 :: b4 :: rest => murmur3Blocks char (murmur3Mix seed (blockWord char b1 b2 b3 b4)) rest
  | seed, tail => (seed, tail)

def murmur3Tail (char : UInt8 → UInt32) (seed : UInt32) : List UInt8 → UInt32
  | [] => seed
  | [a] => seed ^^^ scramble (char a)
  | [a, b] => seed ^^^ scramble (char b <<< 8 ^^^ char a)
  | a :: b :: c :: _ => seed ^^^ scramble (char c <<< 16 ^^^ char b <<< 8 ^^^ char a)

def murmur3Finish (seed len : UInt32) : UInt32 :=
  let seed := seed ^^^ len
  let seed := (seed ^^^ seed >>> 16) * 0x85ebca6b
  let seed := (seed ^^^ seed >>> 13) * 0xc2b2ae35
  seed ^^^ seed >>> 16

def murmur3Seeded (char : UInt8 → UInt32) (seed : UInt32) (data : List UInt8) : UInt32 :=
  let (seed, tail) := murmur3Blocks char seed data
  murmur3Finish (murmur3Tail char seed tail) (UInt32.ofNat data.length)

def murmur3SeededV2 (seed : UInt32) (data : List UInt8) : UInt32 := murmur3Seeded unsignedChar seed data

def murmur3SeededV1 (seed : UInt32) (data : List UInt8) : UInt32 := murmur3Seeded signedChar seed data

def bloomKeyFill (data : List UInt8) (settings : BloomFilterSettings) : List UInt32 :=
  let murmur3 := if settings.hashVersion = 2 then murmur3SeededV2 else murmur3SeededV1
  let hash0 := murmur3 0x293ae76f data
  let hash1 := murmur3 0x7e646e2c data
  (List.range settings.numHashes.toNat).map fun i => hash0 + UInt32.ofNat i * hash1

/-- The keys of the leading directories of a path that are not longer than the position. -/
def keysBelow (path : List UInt8) (settings : BloomFilterSettings) : Nat → List (List UInt32)
  | 0 => []
  | p + 1 =>
    if path[p + 1]? = some slash then bloomKeyFill (path.take (p + 1)) settings :: keysBelow path settings p
    else keysBelow path settings p

def bloomKeyvecNew (path : List UInt8) (settings : BloomFilterSettings) : Option (List (List UInt32)) :=
  let vec := bloomKeyFill path settings :: keysBelow path settings (path.length - 1)
  if vec.length = path.count slash + 1 then some vec else none

def NoHighBit (name : List UInt8) : Prop := ∀ c ∈ name, c < 0x80

lemma signedChar_eq {c : UInt8} (h : c < 0x80) : signedChar c = unsignedChar c := if_pos h

section

variable {char char' : UInt8 → UInt32}

lemma blockWord_congr {b1 b2 b3 b4 : UInt8} (h : ∀ c ∈ [b1, b2, b3, b4], char c = char' c) :
    blockWord char b1 b2 b3 b4 = blockWord char' b1 b2 b3 b4 := by
  unfold blockWord
  rw [h b1 (by simp), h b2 (by simp), h b3 (by simp), h b4 (by simp)]

lemma murmur3Blocks_congr {seed : UInt32} {data : List UInt8} (h : ∀ c ∈ data, char c = char' c) :
    murmur3Blocks char seed data = murmur3Blocks char' seed data ∧
      ∀ c ∈ (murmur3Blocks char seed data).2, c ∈ data := by
  induction seed, data using murmur3Blocks.induct char with
  | case1 seed b1 b2 b3 b4 rest ih =>
    obtain ⟨heq, htail⟩ := ih fun c hc => h c (by simp [hc])
    have hword : blockWord char b1 b2 b3 b4 = blockWord char' b1 b2 b3 b4 :=
      blockWord_congr fun c hc => h c (List.mem_append_left rest hc)
    rw [murmur3Blocks, murmur3Blocks, ← hword]
    exact ⟨heq, fun c hc => by simp [htail c hc]⟩
  | case2 seed tail hshort =>
    rw [murmur3Blocks, murmur3Blocks]
    · exact ⟨rfl, fun c hc => hc⟩
    · exact hshort
    · exact hshort

lemma murmur3Tail_congr {seed : UInt32} {tail : List UInt8} (h : ∀ c ∈ tail, char c = char' c) :
    murmur3Tail char seed tail = murmur3Tail char' seed tail := by
  rcases tail with _ | ⟨a, _ | ⟨b, _ | ⟨c, rest⟩⟩⟩
  · rfl
  · rw [murmur3Tail, murmur3Tail, h a (by simp)]
  · rw [murmur3Tail, murmur3Tail, h a (by simp), h b (by simp)]
  · rw [murmur3Tail, murmur3Tail, h a (by simp), h b (by simp), h c (by simp)]

lemma murmur3Seeded_congr {seed : UInt32} {data : List UInt8} (h : ∀ c ∈ data, char c = char' c) :
    murmur3Seeded char seed data = murmur3Seeded char' seed data := by
  obtain ⟨heq, htail⟩ := @murmur3Blocks_congr char char' seed data h
  rw [murmur3Seeded, murmur3Seeded, ← heq]
  dsimp only
  rw [murmur3Tail_congr fun c hc => h c (htail c hc)]

end

theorem murmur3Seeded_versions {data : List UInt8} (h : NoHighBit data) (seed : UInt32) :
    murmur3SeededV1 seed data = murmur3SeededV2 seed data :=
  murmur3Seeded_congr fun c hc => signedChar_eq (h c hc)

lemma bloomKeyFill_version {data : List UInt8} (h : NoHighBit data) {s t : BloomFilterSettings}
    (hnum : s.numHashes = t.numHashes) : bloomKeyFill data s = bloomKeyFill data t := by
  have heq : murmur3SeededV1 0x293ae76f data = murmur3SeededV2 0x293ae76f data ∧
      murmur3SeededV1 0x7e646e2c data = murmur3SeededV2 0x7e646e2c data :=
    ⟨murmur3Seeded_versions h _, murmur3Seeded_versions h _⟩
  unfold bloomKeyFill
  rw [hnum]
  split <;> split <;> simp only [heq.1, heq.2]

lemma mem_keysBelow {path : List UInt8} {settings : BloomFilterSettings} {n : Nat} {key : List UInt32} :
    key ∈ keysBelow path settings n ↔
      ∃ p, 0 < p ∧ p ≤ n ∧ path[p]? = some slash ∧ key = bloomKeyFill (path.take p) settings := by
  induction n with
  | zero =>
    simp only [keysBelow, List.not_mem_nil, false_iff, not_exists]
    rintro p ⟨hpos, hle, -⟩
    omega
  | succ n ih =>
    have hstep : (∃ p, 0 < p ∧ p ≤ n + 1 ∧ path[p]? = some slash ∧ key = bloomKeyFill (path.take p) settings) ↔
        (path[n + 1]? = some slash ∧ key = bloomKeyFill (path.take (n + 1)) settings) ∨
          key ∈ keysBelow path settings n := by
      rw [ih]
      constructor
      · rintro ⟨p, hpos, hle, hget, hkey⟩
        rcases Nat.lt_or_eq_of_le hle with hlt | rfl
        · exact .inr ⟨p, hpos, by omega, hget, hkey⟩
        · exact .inl ⟨hget, hkey⟩
      · rintro (⟨hget, hkey⟩ | ⟨p, hpos, hle, hget, hkey⟩)
        · exact ⟨n + 1, by omega, le_rfl, hget, hkey⟩
        · exact ⟨p, hpos, by omega, hget, hkey⟩
    rw [hstep, keysBelow]
    split
    · rename_i hget
      rw [List.mem_cons, and_iff_right hget]
    · rename_i hget
      rw [or_iff_right fun h => hget h.1]

lemma length_keysBelow (path : List UInt8) (settings : BloomFilterSettings) {n : Nat} (h : n < path.length) :
    (keysBelow path settings n).length = ((path.take (n + 1)).drop 1).count slash := by
  induction n with
  | zero => simp [keysBelow, List.drop_eq_nil_of_le]
  | succ n ih =>
    have hlast : (path.take (n + 1 + 1)).drop 1 = (path.take (n + 1)).drop 1 ++ [path[n + 1]] := by
      rw [List.take_succ_eq_append_getElem h, List.drop_append_of_le_length (by rw [List.length_take]; omega)]
    have hget : path[n + 1]? = some path[n + 1] := List.getElem?_eq_getElem h
    rw [keysBelow, hlast, List.count_append, ← ih (by omega)]
    by_cases heq : path[n + 1] = slash
    · rw [if_pos (by rw [hget, heq]), List.length_cons, heq, List.count_singleton_self]
    · rw [if_neg (by simpa [hget] using heq), List.count_singleton, if_neg (by simpa using heq)]
      exact (Nat.add_zero _).symm

lemma bloomKeyvecNew_eq {path : List UInt8} (settings : BloomFilterSettings) (hpath : path ≠ [])
    (hhead : path.head? ≠ some slash) :
    bloomKeyvecNew path settings =
      some (bloomKeyFill path settings :: keysBelow path settings (path.length - 1)) := by
  have hlen : 0 < path.length := List.length_pos_iff.mpr hpath
  have hcount : (keysBelow path settings (path.length - 1)).length = path.count slash := by
    rw [length_keysBelow path settings (by omega), Nat.sub_add_cancel hlen, List.take_length]
    obtain ⟨c, rest, rfl⟩ := List.exists_cons_of_ne_nil hpath
    have hc : c ≠ slash := by simpa using hhead
    rw [List.drop_one, List.tail_cons, List.count_cons_of_ne hc]
  unfold bloomKeyvecNew
  rw [if_pos (by rw [List.length_cons, hcount])]

end GitCore.Bloom
