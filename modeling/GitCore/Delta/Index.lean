import GitCore.Delta.Rabin
import Mathlib.Tactic

/-!
# The delta index

`createDeltaIndex` of `diff-delta.c`: fingerprints of the aligned source blocks, culled
hash buckets, and the packed table the encoder searches. Pointers into the source buffer
are offsets, a bucket is the list of the entries its chain visits, and an allocation never
fails. A null dereference or a failed assertion is `none`.
-/

namespace GitCore.Delta

/-- `ptr` is the offset just behind the block whose fingerprint is `val`. -/
structure IndexEntry where
  ptr : Nat
  val : UInt32
deriving DecidableEq, Repr

/-- The unpacked tables while the source is scanned from its last block to its first.
`entry` holds the entries in allocation order and `hash` the positions a chain visits. -/
structure IndexBuild where
  prevVal : UInt32
  entry : List IndexEntry
  hash : List (List Nat)
  hashCount : List Nat
  entries : Nat

/-- The packed index: bucket `i` is `packed[hash[i] .. hash[i + 1])`. -/
structure DeltaIndex where
  srcBuf : List UInt8
  hashMask : Nat
  hash : List Nat
  packed : List IndexEntry
deriving DecidableEq, Repr

/-- Body of the loop that populates the index, for the block at `data`. -/
def indexBlock (buf : List UInt8) (hmask : Nat) (st : IndexBuild) (data : Nat) : IndexBuild :=
  let val := rabinWindow buf (data + 1)
  if val = st.prevVal then
    -- keep the lowest of consecutive identical blocks
    { st with
      entry := st.entry.modify (st.entry.length - 1) (fun e => { e with ptr := data + RABIN_WINDOW })
      entries := st.entries - 1 }
  else
    let i := val.toNat &&& hmask
    { prevVal := val
      entry := st.entry ++ [⟨data + RABIN_WINDOW, val⟩]
      hash := st.hash.modify i (st.entry.length :: ·)
      hashCount := st.hashCount.modify i (· + 1)
      entries := st.entries }

def indexBlocks (buf : List UInt8) (hmask : Nat) : Nat → IndexBuild → IndexBuild
  | 0, st => st
  | k + 1, st => indexBlocks buf hmask k (indexBlock buf hmask st (k * RABIN_WINDOW))

/-- The inner `do ... while (acc > 0)` of the culling loop: the chain from `entry` on. -/
def cullSkip : List Nat → Int → Option (List Nat × Int)
  | [], _ => none
  | _ :: chain, acc =>
    if acc - HASH_LIMIT > 0 then cullSkip chain (acc - HASH_LIMIT)
    else some (chain, acc - HASH_LIMIT)

lemma cullSkip_length {chain rest : List Nat} {acc acc' : Int}
    (h : cullSkip chain acc = some (rest, acc')) : rest.length < chain.length := by
  induction chain generalizing acc with
  | nil => simp [cullSkip] at h
  | cons e chain ih =>
    rw [cullSkip] at h
    split at h
    · exact (ih h).trans (by simp)
    · simp only [Option.some.injEq, Prod.mk.injEq] at h
      simp [h.1]

/-- The outer loop over one bucket that leaves `HASH_LIMIT` of its entries. -/
def cullChain (excess : Int) : List Nat → Int → Option (List Nat)
  | [], _ => some []
  | keep :: chain, acc =>
    if acc + excess > 0 then
      match _h : cullSkip (keep :: chain) (acc + excess) with
      | some (_ :: rest, acc') => (cullChain excess rest acc').map (keep :: ·)
      | _ => none
    else (cullChain excess chain (acc + excess)).map (keep :: ·)
termination_by chain => chain.length
decreasing_by
  · have := cullSkip_length _h
    simp only [List.length_cons] at *
    omega
  · simp

def cullBucket (count : Nat) (chain : List Nat) : Option (List Nat) :=
  if count ≤ HASH_LIMIT then some chain else cullChain (count - HASH_LIMIT : Nat) chain 0

def cullBuckets : List (List Nat) → List Nat → Nat → Option (List (List Nat) × Nat)
  | chain :: hash, count :: hashCount, entries => do
    let chain ← cullBucket count chain
    let (hash, entries) ← cullBuckets hash hashCount
      (if count ≤ HASH_LIMIT then entries else entries - (count - HASH_LIMIT))
    return (chain :: hash, entries)
  | hash, _, entries => some (hash, entries)

def packBuckets (entry : List IndexEntry) :
    List (List Nat) → List Nat → List IndexEntry → List Nat × List IndexEntry
  | [], packedHash, packed => (packedHash ++ [packed.length], packed)
  | chain :: hash, packedHash, packed =>
    packBuckets entry hash (packedHash ++ [packed.length])
      (packed ++ chain.map (entry.getD · ⟨0, 0⟩))

/-- `for (i = 4; (1u << i) < hsize; i++);` -/
def hashBits (hsize : Nat) : Nat → Nat → Nat
  | 0, i => i
  | fuel + 1, i => if 2 ^ i < hsize then hashBits hsize fuel (i + 1) else i

def indexEntries (bufsize : Nat) : Nat :=
  if bufsize ≥ 0xffffffff then 0xfffffffe / RABIN_WINDOW else (bufsize - 1) / RABIN_WINDOW

def createDeltaIndex (buf : List UInt8) : Option DeltaIndex :=
  if buf.length = 0 then none
  else do
    let entries := indexEntries buf.length
    let hsize := 2 ^ hashBits (entries / 4) 32 4
    let hmask := hsize - 1
    let st := indexBlocks buf hmask entries
      ⟨0xffffffff, [], List.replicate hsize [], List.replicate hsize 0, entries⟩
    let (hash, entries) ← cullBuckets st.hash st.hashCount st.entries
    let (packedHash, packed) := packBuckets st.entry hash [] []
    if packed.length = entries then some ⟨buf, hmask, packedHash, packed⟩ else none

/-- The entries `createDelta` visits for fingerprint `val`. -/
def DeltaIndex.bucket (index : DeltaIndex) (val : UInt32) : List IndexEntry :=
  let i := val.toNat &&& index.hashMask
  (index.packed.drop (index.hash.getD i 0)).take
    (index.hash.getD (i + 1) 0 - index.hash.getD i 0)

end GitCore.Delta

/-!
# The index is always built

`createDeltaIndex` fails for the empty buffer only: the culling loop never runs off a chain,
its assertion on the number of packed entries holds, and all entries point into the source.
-/

namespace GitCore.Delta

set_option maxRecDepth 4000 in
lemma rabinT_testBit : ∀ i < 256, (rabinT.getD i 0).toNat.testBit 31 = i.testBit 0 := by
  decide +kernel

lemma rabinPush_lt {val : UInt32} (c : UInt8) (h : val.toNat < 2 ^ 31) :
    (rabinPush val c).toNat < 2 ^ 31 := by
  apply Nat.lt_pow_two_of_testBit
  intro i hi
  by_cases hi32 : 32 ≤ i
  · exact Nat.testBit_lt_two_pow ((rabinPush val c).toNat_lt.trans_le (Nat.pow_le_pow_right (by decide) hi32))
  obtain rfl : i = 31 := by omega
  have hidx : (val >>> RABIN_SHIFT).toNat = val.toNat / 2 ^ 23 := by
    simp [RABIN_SHIFT, UInt32.toNat_shiftRight, Nat.shiftRight_eq_div_pow]
  have hc : c.toNat.testBit 31 = false :=
    Nat.testBit_lt_two_pow (c.toNat_lt.trans (by decide))
  have htab := rabinT_testBit (val.toNat / 2 ^ 23) (by omega)
  rw [rabinPush, UInt32.toNat_xor, UInt32.toNat_or, UInt32.toNat_shiftLeft, Nat.testBit_xor,
    Nat.testBit_or, hidx, htab, ← Nat.shiftRight_eq_div_pow, Nat.testBit_shiftRight,
    UInt8.toNat_toUInt32, hc]
  have hbyte : (8 : UInt32).toNat % 32 = 8 := rfl
  rw [hbyte, Nat.testBit_mod_two_pow, Nat.testBit_shiftLeft]
  simp

lemma rabinWindow_lt (buf : List UInt8) (start : Nat) : (rabinWindow buf start).toNat < 2 ^ 31 := by
  suffices h : ∀ (xs : List UInt8) (val : UInt32), val.toNat < 2 ^ 31 →
      (xs.foldl rabinPush val).toNat < 2 ^ 31 from h _ 0 (by decide)
  intro xs
  induction xs with
  | nil => exact fun val h => h
  | cons c xs ih => exact fun val h => ih _ (rabinPush_lt c h)

lemma sum_modify_succ {counts : List Nat} {i : Nat} (hi : i < counts.length) :
    (counts.modify i (· + 1)).sum = counts.sum + 1 := by
  induction counts generalizing i with
  | nil => simp at hi
  | cons c counts ih =>
    cases i with
    | zero => simp only [List.modify_zero_cons, List.sum_cons]; omega
    | succ i =>
      simp only [List.modify_succ_cons, List.sum_cons, ih (by simpa using hi)]
      omega

lemma map_length_modify_cons (hash : List (List Nat)) (i p : Nat) :
    (hash.modify i (p :: ·)).map List.length = (hash.map List.length).modify i (· + 1) := by
  induction hash generalizing i with
  | nil => simp
  | cons chain hash ih =>
    cases i with
    | zero => simp
    | succ i => simp [ih]

lemma mem_modify_cons {hash : List (List Nat)} {i p : Nat} {chain : List Nat}
    (h : chain ∈ hash.modify i (p :: ·)) : chain ∈ hash ∨ ∃ old ∈ hash, chain = p :: old := by
  induction hash generalizing i with
  | nil => simp at h
  | cons c hash ih =>
    cases i with
    | zero =>
      rcases List.mem_cons.mp (by simpa using h) with rfl | h
      · exact .inr ⟨c, by simp, rfl⟩
      · exact .inl (by simp [h])
    | succ i =>
      rcases List.mem_cons.mp (by simpa using h) with rfl | h
      · exact .inl (by simp)
      · rcases ih h with h | ⟨old, hold, rfl⟩
        · exact .inl (by simp [h])
        · exact .inr ⟨old, by simp [hold], rfl⟩

structure IndexInv (total hsize k : Nat) (st : IndexBuild) : Prop where
  hash_length : st.hash.length = hsize
  count : st.hashCount = st.hash.map List.length
  sum : st.hashCount.sum = st.entry.length
  entries : st.entries = st.entry.length + k
  fresh : st.entry = [] → st.prevVal = 0xffffffff
  chain : ∀ chain ∈ st.hash, ∀ p ∈ chain, p < st.entry.length
  ptr : ∀ e ∈ st.entry, e.ptr ≤ total * RABIN_WINDOW

lemma mem_modify_ptr {entry : List IndexEntry} {i ptr : Nat} {e : IndexEntry}
    (h : e ∈ entry.modify i (fun e => { e with ptr := ptr })) : e ∈ entry ∨ e.ptr = ptr := by
  induction entry generalizing i with
  | nil => simp at h
  | cons e' entry ih =>
    cases i with
    | zero =>
      rcases List.mem_cons.mp (by simpa using h) with rfl | h
      · exact .inr rfl
      · exact .inl (by simp [h])
    | succ i =>
      rcases List.mem_cons.mp (by simpa using h) with rfl | h
      · exact .inl (by simp)
      · rcases ih h with h | h
        · exact .inl (by simp [h])
        · exact .inr h

lemma IndexInv.indexBlock {total bits k : Nat} {st : IndexBuild} (buf : List UInt8)
    (h : IndexInv total (2 ^ bits) (k + 1) st) (hk : k < total) :
    IndexInv total (2 ^ bits) k (indexBlock buf (2 ^ bits - 1) st (k * RABIN_WINDOW)) := by
  obtain ⟨hlen, hcount, hsum, hent, hfresh, hchain, hptr⟩ := h
  have hle : k * RABIN_WINDOW + RABIN_WINDOW ≤ total * RABIN_WINDOW := by
    rw [← Nat.succ_mul]
    exact Nat.mul_le_mul_right _ hk
  have hval := rabinWindow_lt buf (k * RABIN_WINDOW + 1)
  unfold GitCore.Delta.indexBlock
  generalize rabinWindow buf (k * RABIN_WINDOW + 1) = val at hval
  dsimp only
  split
  · next heq =>
    have hne : st.entry ≠ [] := by
      intro hnil
      rw [heq, hfresh hnil] at hval
      exact absurd hval (by decide)
    have hpos := List.length_pos_iff.mpr hne
    refine ⟨hlen, hcount, by simpa using hsum, by simp only [List.length_modify]; omega, ?_,
      by simpa using hchain, ?_⟩
    · intro hnil
      exact absurd (by simpa using congrArg List.length hnil) hne
    · intro e he
      rcases mem_modify_ptr he with he | he
      · exact hptr e he
      · omega
  · have hi : val.toNat &&& (2 ^ bits - 1) < st.hash.length := by
      rw [hlen, Nat.and_two_pow_sub_one_eq_mod]
      exact Nat.mod_lt _ (by positivity)
    generalize val.toNat &&& (2 ^ bits - 1) = i at hi
    refine ⟨by simpa using hlen, ?_, ?_, by simp only [List.length_append, List.length_singleton]; omega,
      by simp, ?_, ?_⟩
    · rw [hcount, map_length_modify_cons]
    · rw [sum_modify_succ (by rw [hcount]; simpa using hi), hsum]
      simp
    · intro chain hmem p hp
      rcases mem_modify_cons hmem with hold | ⟨old, hold, rfl⟩
      · have := hchain chain hold p hp
        simp only [List.length_append]
        omega
      · rcases List.mem_cons.mp hp with rfl | hp
        · simp
        · have := hchain old hold p hp
          simp only [List.length_append]
          omega
    · intro e he
      rcases List.mem_append.mp he with he | he
      · exact hptr e he
      · rw [List.mem_singleton.mp he]
        exact hle

lemma IndexInv.indexBlocks {total bits : Nat} (buf : List UInt8) (k : Nat) (st : IndexBuild)
    (h : IndexInv total (2 ^ bits) k st) (hk : k ≤ total) :
    IndexInv total (2 ^ bits) 0 (indexBlocks buf (2 ^ bits - 1) k st) := by
  induction k generalizing st with
  | zero => exact h
  | succ k ih => exact ih _ (h.indexBlock buf hk) (by omega)

lemma cullSkip_spec (chain : List Nat) (acc : Int) (hpos : 0 < acc)
    (hle : acc ≤ HASH_LIMIT * chain.length) :
    ∃ r, 0 < r ∧ r ≤ chain.length ∧ -HASH_LIMIT < acc - HASH_LIMIT * r ∧ acc - HASH_LIMIT * r ≤ 0 ∧
      cullSkip chain acc = some (chain.drop r, acc - HASH_LIMIT * r) := by
  induction chain generalizing acc with
  | nil => simp at hle; omega
  | cons e chain ih =>
    simp only [HASH_LIMIT, List.length_cons] at *
    by_cases hgt : acc - (64 : Nat) > 0
    · obtain ⟨r, hr0, hr, h1, h2, h3⟩ := ih (acc - (64 : Nat)) hgt (by push_cast at *; omega)
      refine ⟨r + 1, by omega, by omega, by push_cast at *; omega, by push_cast at *; omega, ?_⟩
      rw [cullSkip, HASH_LIMIT, if_pos hgt, h3, List.drop_succ_cons]
      congr 2
      push_cast
      ring
    · refine ⟨1, by decide, by omega, by push_cast at *; omega, by push_cast at *; omega, ?_⟩
      rw [cullSkip, HASH_LIMIT, if_neg hgt]
      simp

lemma cullChain_spec (excess : Nat) (hpos : 0 < excess) (chain : List Nat) (acc : Int) (keep : Nat)
    (hsum : (HASH_LIMIT * chain.length : Int) = keep * (excess + HASH_LIMIT) + acc)
    (hlow : -HASH_LIMIT < acc) (hhigh : acc ≤ 0) :
    ∃ out, cullChain excess chain acc = some out ∧ out.Sublist chain ∧ out.length = keep := by
  simp only [HASH_LIMIT, Nat.cast_ofNat] at hsum hlow
  induction hn : chain.length using Nat.strong_induction_on generalizing chain acc keep with
  | _ n ih =>
    match chain with
    | [] =>
      have h0 : keep = 0 := by
        by_contra hne
        have : (excess + 64 : Int) ≤ keep * (excess + 64) := le_mul_of_one_le_left (by omega) (by omega)
        simp only [List.length_nil] at hsum
        omega
      exact ⟨[], by rw [cullChain], .slnil, by simp [h0]⟩
    | e :: chain =>
      obtain ⟨s, rfl⟩ : ∃ s, keep = s + 1 := by
        cases keep with
        | zero =>
          simp only [List.length_cons] at hsum
          push_cast at hsum
          omega
        | succ s => exact ⟨s, rfl⟩
      push_cast [List.length_cons] at hsum
      have hs : (0 : Int) ≤ s * (excess + 64) := by positivity
      have hone : ((s : Int) + 1) * (excess + 64) = s * (excess + 64) + (excess + 64) := by ring
      rw [cullChain]
      split
      · next hgt =>
        obtain ⟨r, hr0, hr, h1, h2, h3⟩ := cullSkip_spec (e :: chain) (acc + excess) hgt (by
          simp only [HASH_LIMIT, List.length_cons]
          push_cast
          omega)
        simp only [HASH_LIMIT, Nat.cast_ofNat] at h1 h2
        have hlast : r ≤ chain.length := by
          by_contra hc
          have hr' : r = chain.length + 1 := by
            simp only [List.length_cons] at hr
            omega
          subst hr'
          push_cast at h1
          omega
        obtain ⟨f, rest, hrest⟩ : ∃ f rest, (e :: chain).drop r = f :: rest := by
          cases hd : (e :: chain).drop r with
          | nil =>
            have := List.drop_eq_nil_iff.mp hd
            simp only [List.length_cons] at this
            omega
          | cons f rest => exact ⟨f, rest, rfl⟩
        have hlen : rest.length + r = chain.length := by
          have := congrArg List.length hrest
          simp only [List.length_drop, List.length_cons] at this
          omega
        have hsub : rest.Sublist chain := by
          have h' : (e :: chain).drop (r + 1) = rest := by
            rw [← List.drop_drop, hrest]
            rfl
          rw [← h', List.drop_succ_cons]
          exact List.drop_sublist _ _
        obtain ⟨out, ho, hosub, holen⟩ := ih rest.length (by simp only [List.length_cons] at hn; omega)
          rest (acc + excess - 64 * r) s (by push_cast [← hlen] at hsum; linarith) h1 h2 rfl
        split
        · next f' rest' acc' hsome =>
          rw [h3, hrest] at hsome
          simp only [Option.some.injEq, Prod.mk.injEq, List.cons.injEq] at hsome
          obtain ⟨⟨-, rfl⟩, rfl⟩ := hsome
          simp only [HASH_LIMIT, Nat.cast_ofNat]
          exact ⟨e :: out, by rw [ho]; rfl, (hosub.trans hsub).cons_cons e, by simp [holen]⟩
        · next hnone => exact absurd (h3.trans (by rw [hrest])) (hnone f rest _)
      · next hle =>
        obtain ⟨out, ho, hosub, holen⟩ := ih chain.length (by simp only [List.length_cons] at hn; omega)
          chain (acc + excess) s (by linarith) (by omega) (by omega) rfl
        exact ⟨e :: out, by rw [ho]; rfl, hosub.cons_cons e, by simp [holen]⟩

lemma cullBucket_spec (chain : List Nat) :
    ∃ out, cullBucket chain.length chain = some out ∧ out.Sublist chain ∧
      out.length = min chain.length HASH_LIMIT := by
  unfold cullBucket
  split
  · next h => exact ⟨chain, rfl, List.Sublist.refl _, by omega⟩
  · next h =>
    obtain ⟨out, ho, hsub, hlen⟩ := cullChain_spec (chain.length - HASH_LIMIT) (by omega) chain 0
      HASH_LIMIT (by push_cast [show HASH_LIMIT ≤ chain.length by omega]; ring) (by decide) le_rfl
    exact ⟨out, ho, hsub, by omega⟩

lemma cullBuckets_spec (hash : List (List Nat)) (entries : Nat)
    (hent : (hash.map List.length).sum ≤ entries) :
    ∃ out, cullBuckets hash (hash.map List.length) entries =
        some (out, entries - (hash.map List.length).sum + (out.map List.length).sum) ∧
      out.length = hash.length ∧ ∀ chain ∈ out, ∃ old ∈ hash, chain.Sublist old := by
  induction hash generalizing entries with
  | nil => exact ⟨[], by simp [cullBuckets], rfl, by simp⟩
  | cons chain hash ih =>
    obtain ⟨c, hc, hsub, hlen⟩ := cullBucket_spec chain
    simp only [List.map_cons, List.sum_cons] at hent
    have hstep : (hash.map List.length).sum ≤
        if chain.length ≤ HASH_LIMIT then entries else entries - (chain.length - HASH_LIMIT) := by
      split <;> omega
    obtain ⟨out, ho, hol, hos⟩ := ih _ hstep
    refine ⟨c :: out, ?_, by simp [hol], ?_⟩
    · simp only [List.map_cons, cullBuckets, hc, ho, bind, Option.bind, pure, List.sum_cons,
        Option.some.injEq, Prod.mk.injEq, true_and, hlen]
      split <;> omega
    · intro chain' hmem
      rcases List.mem_cons.mp hmem with rfl | hmem
      · exact ⟨chain, by simp, hsub⟩
      · obtain ⟨old, hold, hs⟩ := hos chain' hmem
        exact ⟨old, by simp [hold], hs⟩

lemma packBuckets_spec (entry : List IndexEntry) (hash : List (List Nat)) (packedHash : List Nat)
    (packed : List IndexEntry) :
    (packBuckets entry hash packedHash packed).2 =
        packed ++ (hash.map (List.map (entry.getD · ⟨0, 0⟩))).flatten ∧
      (packBuckets entry hash packedHash packed).1.length = packedHash.length + hash.length + 1 := by
  induction hash generalizing packedHash packed with
  | nil => simp [packBuckets]
  | cons chain hash ih =>
    obtain ⟨h1, h2⟩ := ih (packedHash ++ [packed.length]) (packed ++ chain.map (entry.getD · ⟨0, 0⟩))
    rw [packBuckets]
    refine ⟨by rw [h1]; simp, ?_⟩
    rw [h2]
    simp only [List.length_append, List.length_cons, List.length_nil]
    omega

lemma indexEntries_mul_le {bufsize : Nat} (h : 0 < bufsize) :
    indexEntries bufsize * RABIN_WINDOW < bufsize := by
  unfold indexEntries RABIN_WINDOW
  split <;> omega

theorem createDeltaIndex_total {buf : List UInt8} (hpos : buf ≠ []) :
    ∃ index, createDeltaIndex buf = some index ∧ index.srcBuf = buf ∧
      (∀ e ∈ index.packed, e.ptr < buf.length) ∧
      ∀ val : UInt32, (val.toNat &&& index.hashMask) + 1 < index.hash.length := by
  have hlen := List.length_pos_iff.mpr hpos
  generalize hbits : hashBits (indexEntries buf.length / 4) 32 4 = bits
  have hinit : IndexInv (indexEntries buf.length) (2 ^ bits) (indexEntries buf.length)
      ⟨0xffffffff, [], List.replicate (2 ^ bits) [], List.replicate (2 ^ bits) 0,
        indexEntries buf.length⟩ := by
    refine ⟨by simp, by simp, by simp, by simp, fun _ => rfl, ?_, by simp⟩
    intro chain hmem
    rw [List.eq_of_mem_replicate hmem]
    simp
  have hinv := hinit.indexBlocks buf (indexEntries buf.length) _ le_rfl
  generalize hst : indexBlocks buf (2 ^ bits - 1) (indexEntries buf.length) _ = st at hinv
  obtain ⟨hhl, hcount, hsum, hent, -, hchain, hptr⟩ := hinv
  obtain ⟨out, hout, hol, hos⟩ := cullBuckets_spec st.hash st.entries (by rw [← hcount]; omega)
  obtain ⟨hpacked, hhash⟩ := packBuckets_spec st.entry out [] []
  have hassert : (packBuckets st.entry out [] []).2.length = (out.map List.length).sum := by
    rw [hpacked]
    simp [List.length_flatten, Function.comp_def]
  have hzero : st.entries - (st.hash.map List.length).sum = 0 := by
    rw [← hcount]
    omega
  have heq : createDeltaIndex buf = some ⟨buf, 2 ^ bits - 1, (packBuckets st.entry out [] []).1,
      (packBuckets st.entry out [] []).2⟩ := by
    rw [createDeltaIndex, if_neg (by omega)]
    simp only [hbits, hst, hcount, hout, hzero, bind, Option.bind, hassert, Nat.zero_add, if_true]
  refine ⟨_, heq, rfl, ?_, ?_⟩
  · intro e he
    rw [hpacked, List.nil_append, List.mem_flatten] at he
    obtain ⟨l, hl, he⟩ := he
    obtain ⟨chain, hmem, rfl⟩ := List.mem_map.mp hl
    obtain ⟨p, hp, rfl⟩ := List.mem_map.mp he
    obtain ⟨old, hold, hsub⟩ := hos chain hmem
    have hlt := hchain old hold p (hsub.subset hp)
    rw [List.getD_eq_getElem _ _ hlt]
    exact (hptr _ (List.getElem_mem hlt)).trans_lt (indexEntries_mul_le hlen)
  · intro val
    simp only
    rw [hhash, hol, hhl, Nat.and_two_pow_sub_one_eq_mod]
    have := Nat.mod_lt val.toNat (show 2 ^ bits > 0 by positivity)
    simp only [List.length_nil]
    omega

end GitCore.Delta
