import GitCore.Lib.Search
import GitCore.Pack.Header
import Mathlib.Data.List.TakeWhile

/-!
# Reuse of packed objects

`write_reused_pack` of `builtin/pack-objects.c`: objects that a bitmap marks are copied out of a
pack, whole words of the bitmap at once and the others one by one, and the distances of offset
deltas are corrected by a table of how far objects have moved.
-/

namespace GitCore.Pack

/-- A pack: its bytes, the offsets of its objects in pack order with the end of the last one, and
their ids in that order. -/
structure SourcePack where
  bytes : List UInt8
  numObjects : Nat
  packPosToOffset : Nat → Nat
  packPosToId : Nat → List UInt8

/-- `sizeof(struct pack_header)` -/
abbrev packHeaderSize : Nat := 12

def SourcePack.copy (p : SourcePack) (offset len : Nat) : List UInt8 := (p.bytes.drop offset).take len

def offsetToPackPos (p : SourcePack) (ofs : Nat) : Option Nat :=
  let r := binarySearch (fun mi => (ofs : Int) - p.packPosToOffset mi) 0 (p.numObjects + 1)
  if 0 ≤ r then some r.toNat else none

structure ReusedChunk where
  original : Nat
  difference : Int

structure ReuseState where
  out : List UInt8
  chunks : List ReusedChunk

def recordReusedObject (chunks : List ReusedChunk) (original : Nat) (difference : Int) : List ReusedChunk :=
  match chunks.getLast? with
  | none => chunks ++ [⟨original, difference⟩]
  | some last => if last.difference = difference then chunks else chunks ++ [⟨original, difference⟩]

def findReusedOffset (chunks : List ReusedChunk) (original : Nat) : Option Int :=
  let r := binarySearch (fun mi => (original : Int) - (chunks.map ReusedChunk.original).getD mi 0) 0 chunks.length
  if 0 ≤ r then chunks[r.toNat]?.map ReusedChunk.difference
  else if r = -1 then none
  else chunks[(-r - 2).toNat]?.map ReusedChunk.difference

def getOfsDeltaBase (p : SourcePack) (curpos deltaObjOffset : Nat) : Option (Nat × Nat) :=
  (readOfsDelta (p.bytes.drop curpos)).bind fun r =>
    if 0 < r.1 ∧ r.1 < deltaObjOffset then some (deltaObjOffset - r.1, p.bytes.length - r.2.length) else none

def writeReusedPackOne (allowOfsDelta : Bool) (p : SourcePack) (packStart : Nat) (s : ReuseState) (pos : Nat) :
    Option ReuseState :=
  let offset := p.packPosToOffset pos
  let next := p.packPosToOffset (pos + 1)
  let chunks := recordReusedObject s.chunks offset ((offset : Int) - ((s.out.length : Int) - packStart))
  (unpackObjectHeaderBuffer (p.bytes.drop offset)).bind fun r =>
    if r.1 = objOfsDelta then
      (getOfsDeltaBase p (offset + r.2.2) offset).bind fun base =>
        if allowOfsDelta = false then
          (offsetToPackPos p base.1).map fun basePos =>
            ⟨s.out ++ encodeInPackObjectHeader objRefDelta r.2.1 ++ p.packPosToId basePos ++ p.copy base.2 (next - base.2),
              chunks⟩
        else
          (findReusedOffset chunks offset).bind fun moved =>
            (findReusedOffset chunks base.1).map fun movedBase =>
              if moved - movedBase ≠ 0 then
                ⟨s.out ++ encodeInPackObjectHeader objOfsDelta r.2.1 ++
                    encodeVarint ((offset : Int) - base.1 - (moved - movedBase)).toNat ++ p.copy base.2 (next - base.2),
                  chunks⟩
              else ⟨s.out ++ p.copy offset (next - offset), chunks⟩
    else some ⟨s.out ++ p.copy offset (next - offset), chunks⟩

/-- A pack of a bitmap, and for a MIDX the offset of every bit position in the pack that it was
selected from. -/
structure BitmappedPack where
  p : SourcePack
  bitmapPos : Nat
  bitmapNr : Nat
  fromMidx : Option (Nat → Nat)

abbrev bitsInEword : Nat := 64

abbrev fullWord : UInt64 := UInt64.ofNat (2 ^ 64 - 1)

/-- `write_reused_pack_verbatim`: how many words it has done; nothing when it reaches its BUG. -/
def writeReusedPackVerbatim (b : BitmappedPack) (words : List UInt64) (s : ReuseState) : Option (Nat × ReuseState) :=
  if b.bitmapPos ≠ 0 then some (b.bitmapPos / bitsInEword, s)
  else if words.length < b.bitmapNr / bitsInEword then none
  else
    let pos := ((words.take (b.bitmapNr / bitsInEword)).takeWhile (· = fullWord)).length
    if pos = 0 then some (0, s)
    else
      some (pos, ⟨s.out ++ b.p.copy packHeaderSize (b.p.packPosToOffset (pos * bitsInEword) - packHeaderSize),
        recordReusedObject s.chunks packHeaderSize 0⟩)

def ewahBitCtz64 (x : Nat) : Nat :=
  if x = 0 ∨ x % 2 = 1 then 0 else ewahBitCtz64 (x / 2) + 1
termination_by x
decreasing_by omega

def bitToPackPos (b : BitmappedPack) (bit : Nat) : Option Nat :=
  if b.bitmapPos ≠ 0 then b.fromMidx.bind fun offset => offsetToPackPos b.p (offset bit) else some bit

/-- The loop over the bits of a word; whether it went to `done` is the first part. -/
def reusedWordLoop (allowOfsDelta : Bool) (b : BitmappedPack) (packStart pos word offset : Nat) (s : ReuseState) :
    Option (Bool × ReuseState) :=
  if offset < bitsInEword then
    if word / 2 ^ offset = 0 then some (false, s)
    else
      let bit := offset + ewahBitCtz64 (word / 2 ^ offset)
      if pos + bit < b.bitmapPos then reusedWordLoop allowOfsDelta b packStart pos word (bit + 1) s
      else if b.bitmapPos + b.bitmapNr ≤ pos + bit then some (true, s)
      else
        (bitToPackPos b (pos + bit)).bind fun packPos =>
          (writeReusedPackOne allowOfsDelta b.p packStart s packPos).bind fun s' =>
            reusedWordLoop allowOfsDelta b packStart pos word (bit + 1) s'
  else some (false, s)
termination_by bitsInEword - offset

def reusedWordsLoop (allowOfsDelta : Bool) (b : BitmappedPack) (packStart i : Nat) :
    List UInt64 → ReuseState → Option ReuseState
  | [], s => some s
  | word :: words, s =>
    (reusedWordLoop allowOfsDelta b packStart (i * bitsInEword) word.toNat 0 s).bind fun r =>
      if r.1 = true then some r.2 else reusedWordsLoop allowOfsDelta b packStart (i + 1) words r.2

def writeReusedPack (allowOfsDelta : Bool) (b : BitmappedPack) (words : List UInt64) (out : List UInt8) :
    Option ReuseState :=
  (if allowOfsDelta = true then writeReusedPackVerbatim b words ⟨out, []⟩
    else some (b.bitmapPos / bitsInEword, ⟨out, []⟩)).bind fun r =>
    reusedWordsLoop allowOfsDelta b (out.length - packHeaderSize) r.1 (words.drop r.1) r.2

end GitCore.Pack

/-!
# What reuse emits

The chunks say how far every object has moved, so an offset delta that is emitted carries the
distance between the new places of the object and its base.
-/

namespace GitCore.Pack

def IsRecord (r : List UInt8) (type size : Nat) (body : List UInt8) : Prop :=
  ∃ used, unpackObjectHeaderBuffer r = some (type, size, used) ∧ r.drop used = body

lemma isRecord_encode {type size : Nat} (htype : type < 8) (hsize : size < 2 ^ 60) (body : List UInt8) :
    IsRecord (encodeInPackObjectHeader type size ++ body) type size body :=
  ⟨_, unpackObjectHeaderBuffer_encode htype hsize body, List.drop_left' rfl⟩

namespace SourcePack

def record (p : SourcePack) (q : Nat) : List UInt8 :=
  p.copy (p.packPosToOffset q) (p.packPosToOffset (q + 1) - p.packPosToOffset q)

/-- The objects are one behind the other, their headers can be read, and the base of an offset delta is
an object in front of it. -/
structure WellFormed (p : SourcePack) : Prop where
  first : p.packPosToOffset 0 = packHeaderSize
  mono : ∀ q < p.numObjects, p.packPosToOffset q < p.packPosToOffset (q + 1)
  last : p.packPosToOffset p.numObjects ≤ p.bytes.length
  parse : ∀ q < p.numObjects, ∃ type size body, IsRecord (p.record q) type size body ∧
    (type = objOfsDelta → ∃ ofs data base, readOfsDelta body = some (ofs, data) ∧ base < q ∧
      p.packPosToOffset base + ofs = p.packPosToOffset q)

variable {p : SourcePack}

lemma WellFormed.offset_lt (h : p.WellFormed) {x y : Nat} (hxy : x < y) (hy : y ≤ p.numObjects) :
    p.packPosToOffset x < p.packPosToOffset y := by
  induction y with
  | zero => omega
  | succ y ih =>
    have hstep := h.mono y (by omega)
    rcases Nat.eq_or_lt_of_le (Nat.le_of_lt_succ hxy) with rfl | hlt
    · exact hstep
    · exact (ih hlt (by omega)).trans hstep

lemma WellFormed.offset_le (h : p.WellFormed) {x y : Nat} (hxy : x ≤ y) (hy : y ≤ p.numObjects) :
    p.packPosToOffset x ≤ p.packPosToOffset y := by
  rcases Nat.eq_or_lt_of_le hxy with rfl | hlt
  · exact le_rfl
  · exact (h.offset_lt hlt hy).le

lemma WellFormed.offset_lt_iff (h : p.WellFormed) {x y : Nat} (hx : x ≤ p.numObjects) (hy : y ≤ p.numObjects) :
    p.packPosToOffset x < p.packPosToOffset y ↔ x < y :=
  ⟨fun hlt => Nat.lt_of_not_le fun hle => absurd (h.offset_le hle hx) (Nat.not_le.mpr hlt), fun hlt => h.offset_lt hlt hy⟩

lemma WellFormed.offset_inj (h : p.WellFormed) {x y : Nat} (hx : x ≤ p.numObjects) (hy : y ≤ p.numObjects)
    (heq : p.packPosToOffset x = p.packPosToOffset y) : x = y := by
  have hxy := h.offset_lt_iff hx hy
  have hyx := h.offset_lt_iff hy hx
  omega

lemma WellFormed.length_record (h : p.WellFormed) {q : Nat} (hq : q < p.numObjects) :
    (p.record q).length = p.packPosToOffset (q + 1) - p.packPosToOffset q := by
  have hle : p.packPosToOffset (q + 1) ≤ p.bytes.length := (h.offset_le hq le_rfl).trans h.last
  rw [record, copy, List.length_take, List.length_drop]
  omega

lemma WellFormed.drop_offset (h : p.WellFormed) {q : Nat} (hq : q < p.numObjects) :
    p.bytes.drop (p.packPosToOffset q) = p.record q ++ p.bytes.drop (p.packPosToOffset (q + 1)) := by
  have hle := (h.mono q hq).le
  rw [record, copy]
  have hsplit := (List.take_append_drop (p.packPosToOffset (q + 1) - p.packPosToOffset q)
    (p.bytes.drop (p.packPosToOffset q))).symm
  rw [List.drop_drop, Nat.add_sub_cancel' hle] at hsplit
  exact hsplit

lemma WellFormed.offsetToPackPos_eq (h : p.WellFormed) {q : Nat} (hq : q ≤ p.numObjects) :
    offsetToPackPos p (p.packPosToOffset q) = some q := by
  have hlen : ((List.range (p.numObjects + 1)).map p.packPosToOffset).length = p.numObjects + 1 := by
    rw [List.length_map, List.length_range]
  have hget : ∀ i x, ((List.range (p.numObjects + 1)).map p.packPosToOffset)[i]? = some x →
      i < p.numObjects + 1 ∧ x = p.packPosToOffset i := fun i x hi => by
    obtain ⟨hlt, rfl⟩ := List.getElem?_eq_some_iff.mp hi
    rw [hlen] at hlt
    exact ⟨hlt, by rw [List.getElem_map, List.getElem_range]⟩
  have hsorted : ((List.range (p.numObjects + 1)).map p.packPosToOffset).Pairwise fun a b => id a < id b := by
    rw [List.pairwise_map]
    refine List.pairwise_lt_range.imp_of_mem fun {a b} ha hb hab => ?_
    exact h.offset_lt hab (Nat.le_of_lt_succ (List.mem_range.mp hb))
  have hcmp : ComparesKeys id (p.packPosToOffset q) ((List.range (p.numObjects + 1)).map p.packPosToOffset)
      fun mi => ((p.packPosToOffset q : Nat) : Int) - p.packPosToOffset mi := fun i x hi => by
    obtain ⟨-, rfl⟩ := hget i x hi
    simp only [id]
    omega
  have hsearch := binarySearch_split hsorted hcmp
  rw [hlen] at hsearch
  rw [offsetToPackPos]
  rcases hsearch with ⟨a, x, b, hl, hkey, hresult⟩ | ⟨a, b, hl, ha, hb, -⟩
  · have hx : ((List.range (p.numObjects + 1)).map p.packPosToOffset)[a.length]? = some x := by
      rw [hl, List.getElem?_append_right le_rfl, Nat.sub_self, List.getElem?_cons_zero]
    obtain ⟨hlt, rfl⟩ := hget _ _ hx
    rw [hresult, if_pos (Int.natCast_nonneg _), Int.toNat_natCast,
      h.offset_inj (Nat.le_of_lt_succ hlt) hq hkey]
  · have hmem : p.packPosToOffset q ∈ a ++ b := by
      rw [← hl]
      exact List.mem_map.mpr ⟨q, List.mem_range.mpr (Nat.lt_succ_of_le hq), rfl⟩
    rcases List.mem_append.mp hmem with hmem | hmem
    · exact absurd (ha _ hmem) (lt_irrefl _)
    · exact absurd (hb _ hmem) (lt_irrefl _)

end SourcePack

section Chunks

lemma findReusedOffset_of_split {chunks a b : List ReusedChunk} {c : ReusedChunk} {x : Nat}
    (hsorted : chunks.Pairwise fun c d => c.original < d.original) (hsplit : chunks = a ++ c :: b)
    (hle : c.original ≤ x) (hlt : ∀ d ∈ b, x < d.original) : findReusedOffset chunks x = some c.difference := by
  have hcmp : ComparesKeys ReusedChunk.original x chunks
      fun mi => (x : Int) - (chunks.map ReusedChunk.original).getD mi 0 := fun i d hi => by
    have hget : (chunks.map ReusedChunk.original).getD i 0 = d.original := by
      rw [List.getD_eq_getElem?_getD, List.getElem?_map, hi]
      rfl
    dsimp only
    rw [hget]
    omega
  -- another chunk is in front of this one or starts behind the offset
  have hother : ∀ d ∈ chunks, d.original ≤ x → c.original ≤ d.original → d = c := fun d hd hdx hcd => by
    rw [hsplit] at hd hsorted
    rcases List.mem_append.mp hd with hd | hd
    · exact absurd ((List.pairwise_append.mp hsorted).2.2 d hd c List.mem_cons_self) (Nat.not_lt.mpr hcd)
    · rcases List.mem_cons.mp hd with rfl | hd
      · rfl
      · exact absurd (hlt d hd) (Nat.not_lt.mpr hdx)
  have hc : c ∈ chunks := by
    rw [hsplit]
    exact List.mem_append_right _ List.mem_cons_self
  rw [findReusedOffset]
  rcases binarySearch_split hsorted hcmp with ⟨a', d, b', hl, hkey, hresult⟩ | ⟨a', b', hl, ha, hb, hresult⟩
  · have hd : d ∈ chunks := by
      rw [hl]
      exact List.mem_append_right _ List.mem_cons_self
    have hget : chunks[a'.length]? = some d := by
      rw [hl, List.getElem?_append_right le_rfl, Nat.sub_self, List.getElem?_cons_zero]
    rw [hresult, if_pos (Int.natCast_nonneg _), Int.toNat_natCast, hget, Option.map_some,
      hother d hd hkey.le (hkey ▸ hle)]
  · have hca : c ∈ a' := by
      rw [hl] at hc
      refine (List.mem_append.mp hc).resolve_right fun hmem => ?_
      exact absurd (hb c hmem) (Nat.not_lt.mpr hle)
    obtain ⟨init, d, rfl⟩ := (List.eq_nil_or_concat a').resolve_left (List.ne_nil_of_mem hca)
    rw [List.concat_eq_append] at hl ha hca hresult
    have hcd : c.original ≤ d.original := by
      rcases List.mem_append.mp hca with hmem | hmem
      · rw [hl, List.append_assoc] at hsorted
        exact ((List.pairwise_append.mp hsorted).2.2 c hmem d List.mem_cons_self).le
      · exact (List.mem_singleton.mp hmem ▸ le_rfl)
    have hd : d ∈ chunks := by
      rw [hl]
      exact List.mem_append_left _ (List.mem_append_right _ List.mem_cons_self)
    have hget : chunks[init.length]? = some d := by
      rw [hl, List.append_assoc, List.getElem?_append_right le_rfl, Nat.sub_self]
      rfl
    rw [List.length_append, List.length_singleton] at hresult
    rw [hresult, if_neg (by omega), if_neg (by omega),
      show (-(-((init.length + 1 : Nat) : Int) - 1) - 2).toNat = init.length by omega, hget, Option.map_some,
      hother d hd (ha d (List.mem_append_right _ List.mem_cons_self)).le hcd]

end Chunks

section Emitting

/-- Where the record of an object starts when those of the objects of `l` in front of it come behind
`before`. -/
def newOffset (before : List UInt8) (record : Nat → List UInt8) (l : List Nat) (q : Nat) : Nat :=
  before.length + ((l.filter (· < q)).map fun x => (record x).length).sum

/-- What is emitted for an object: its record as it is, unless it is an offset delta. That one has the
distance to the new place of its base, or becomes a delta with the id of its base. -/
def Emitted (allowOfsDelta : Bool) (p : SourcePack) (place : Nat → Nat) (q : Nat) (r : List UInt8) : Prop :=
  ∀ type size body, IsRecord (p.record q) type size body →
    (type ≠ objOfsDelta → r = p.record q) ∧
      (type = objOfsDelta → ∀ ofs data base, readOfsDelta body = some (ofs, data) →
        base < p.numObjects → p.packPosToOffset base + ofs = p.packPosToOffset q →
          (allowOfsDelta = true → ∃ body' ofs', IsRecord r objOfsDelta size body' ∧
            readOfsDelta body' = some (ofs', data) ∧ place base + ofs' = place q) ∧
          (allowOfsDelta = false → IsRecord r objRefDelta size (p.packPosToId base ++ data)))

lemma newOffset_snoc {before : List UInt8} {record record' : Nat → List UInt8} {l : List Nat} {q x : Nat}
    (hrecord : ∀ y ∈ l, record' y = record y) (hx : x ≤ q) :
    newOffset before record' (l ++ [q]) x = newOffset before record l x := by
  have hfilter : [q].filter (· < x) = [] := by simpa using hx
  rw [newOffset, newOffset, List.filter_append, hfilter, List.append_nil]
  congr 2
  exact List.map_congr_left fun y hy => by rw [hrecord y (List.mem_filter.mp hy).1]

lemma newOffset_last {before : List UInt8} {record : Nat → List UInt8} {l : List Nat} {q : Nat} (hq : ∀ x ∈ l, x < q) :
    newOffset before record l q = (before ++ (l.map record).flatten).length := by
  have hfilter : l.filter (· < q) = l := List.filter_eq_self.mpr fun x hx => decide_eq_true (hq x hx)
  rw [newOffset, hfilter, List.length_append, List.length_flatten, List.map_map]
  rfl

def MovedBy (chunks : List ReusedChunk) (offset : Nat) (difference : Int) : Prop :=
  ∃ a c b, chunks = a ++ c :: b ∧ c.original ≤ offset ∧ (∀ d ∈ b, offset < d.original) ∧ c.difference = difference

structure Reused (allowOfsDelta : Bool) (p : SourcePack) (before : List UInt8) (l : List Nat) (s : ReuseState)
    (record : Nat → List UInt8) : Prop where
  out_eq : s.out = before ++ (l.map record).flatten
  ascending : l.Pairwise (· < ·)
  bounded : ∀ q ∈ l, q < p.numObjects
  emitted : ∀ q ∈ l, Emitted allowOfsDelta p (newOffset before record l) q (record q)
  shorter : allowOfsDelta = true → ∀ q ∈ l, (record q).length ≤ (p.record q).length
  sorted : s.chunks.Pairwise fun c d => c.original < d.original
  chunk_start : ∀ c ∈ s.chunks, ∃ q ∈ l, c.original ≤ p.packPosToOffset q
  moved : ∀ q ∈ l, MovedBy s.chunks (p.packPosToOffset q)
    (p.packPosToOffset q - ((newOffset before record l q : Int) - (before.length - packHeaderSize : Nat)))

lemma recordReusedObject_spec {chunks : List ReusedChunk} {offset : Nat} (difference : Int)
    (hsorted : chunks.Pairwise fun c d => c.original < d.original) (hbehind : ∀ c ∈ chunks, c.original < offset) :
    (recordReusedObject chunks offset difference).Pairwise (fun c d => c.original < d.original) ∧
      (∀ c ∈ recordReusedObject chunks offset difference, c.original ≤ offset) ∧
      MovedBy (recordReusedObject chunks offset difference) offset difference ∧
      ∀ x d, x < offset → MovedBy chunks x d → MovedBy (recordReusedObject chunks offset difference) x d := by
  have hnew : (chunks ++ [ReusedChunk.mk offset difference]).Pairwise (fun c d => c.original < d.original) ∧
      (∀ c ∈ chunks ++ [ReusedChunk.mk offset difference], c.original ≤ offset) ∧
      MovedBy (chunks ++ [ReusedChunk.mk offset difference]) offset difference ∧
      ∀ x d, x < offset → MovedBy chunks x d → MovedBy (chunks ++ [ReusedChunk.mk offset difference]) x d := by
    refine ⟨List.pairwise_append.mpr ⟨hsorted, List.pairwise_singleton _ _, fun c hc d hd => ?_⟩, fun c hc => ?_,
      ⟨chunks, _, [], rfl, le_rfl, fun d hd => absurd hd List.not_mem_nil, rfl⟩, fun x d hx hmoved => ?_⟩
    · rw [List.mem_singleton.mp hd]
      exact hbehind c hc
    · rcases List.mem_append.mp hc with hc | hc
      · exact (hbehind c hc).le
      · rw [List.mem_singleton.mp hc]
    · obtain ⟨a, c, b, hsplit, hle, hlt, hdiff⟩ := hmoved
      refine ⟨a, c, b ++ [ReusedChunk.mk offset difference], by rw [hsplit]; simp, hle, fun e he => ?_, hdiff⟩
      rcases List.mem_append.mp he with he | he
      · exact hlt e he
      · rw [List.mem_singleton.mp he]
        exact hx
  rw [recordReusedObject]
  cases hlast : chunks.getLast? with
  | none => exact hnew
  | some last =>
    dsimp only
    split_ifs with hsame
    · obtain ⟨init, hinit⟩ := List.getLast?_eq_some_iff.mp hlast
      refine ⟨hsorted, fun c hc => (hbehind c hc).le, ⟨init, last, [], hinit, (hbehind last ?_).le,
        fun d hd => absurd hd List.not_mem_nil, hsame⟩, fun x d _ hmoved => hmoved⟩
      rw [hinit]
      exact List.mem_append_right _ List.mem_cons_self
    · exact hnew

lemma sum_records_le {p : SourcePack} (hp : p.WellFormed) {l : List Nat} (hl : l.Pairwise (· < ·)) {b q : Nat}
    (hb : ∀ x ∈ l, b ≤ x) (hq : ∀ x ∈ l, x < q) (hqn : q ≤ p.numObjects) (hbq : b ≤ q) :
    p.packPosToOffset b + (l.map fun x => (p.record x).length).sum ≤ p.packPosToOffset q := by
  induction l generalizing b with
  | nil => exact hp.offset_le hbq hqn
  | cons x l ih =>
    obtain ⟨hx, hl⟩ := List.pairwise_cons.mp hl
    have hxq := hq x List.mem_cons_self
    have hrest := ih hl (fun y hy => hx y hy) (fun y hy => hq y (List.mem_cons_of_mem _ hy)) hxq
    have hbx := hp.offset_le (hb x List.mem_cons_self) (by omega)
    have hmono := hp.mono x (by omega)
    rw [List.map_cons, List.sum_cons, hp.length_record (by omega)]
    simp only [Nat.succ_eq_add_one] at hrest
    omega

lemma newOffset_sub_le {p : SourcePack} (hp : p.WellFormed) {before : List UInt8} {record : Nat → List UInt8} {l : List Nat}
    (hl : l.Pairwise (· < ·)) (hshort : ∀ x ∈ l, (record x).length ≤ (p.record x).length) {b q : Nat}
    (hbq : b ≤ q) (hq : ∀ x ∈ l, x < q) (hqn : q ≤ p.numObjects) :
    newOffset before record l b ≤ newOffset before record l q ∧
      p.packPosToOffset b + (newOffset before record l q - newOffset before record l b) ≤ p.packPosToOffset q := by
  have hfilter : l.filter (· < q) = l := List.filter_eq_self.mpr fun x hx => decide_eq_true (hq x hx)
  have hperm := (List.filter_append_perm (· < b) l).map fun x => (record x).length
  have hsum := hperm.sum_eq
  rw [List.map_append, List.sum_append] at hsum
  have hrest := sum_records_le hp (hl.filter fun x => !decide (x < b)) (b := b) (q := q)
    (fun x hx => by simpa using (List.mem_filter.mp hx).2) (fun x hx => hq x (List.mem_filter.mp hx).1) hqn hbq
  have hle : ((l.filter fun x => !decide (x < b)).map fun x => (record x).length).sum ≤
      ((l.filter fun x => !decide (x < b)).map fun x => (p.record x).length).sum :=
    List.sum_le_sum fun x hx => hshort x (List.mem_filter.mp hx).1
  rw [newOffset, newOffset, hfilter]
  omega

variable {allowOfsDelta : Bool} {p : SourcePack} {before : List UInt8} {l : List Nat} {s : ReuseState}
  {record : Nat → List UInt8}

lemma Emitted.congr (hp : p.WellFormed) {place place' : Nat → Nat} {q : Nat} (hq : q ≤ p.numObjects) {r : List UInt8}
    (h : Emitted allowOfsDelta p place q r) (hplace : ∀ x ≤ q, place' x = place x) :
    Emitted allowOfsDelta p place' q r := by
  intro type size body hrecord
  obtain ⟨hother, hdelta⟩ := h type size body hrecord
  refine ⟨hother, fun htype ofs data base hread hbase heq => ?_⟩
  have hle : base ≤ q := Nat.le_of_not_lt fun hlt => by
    have hoff := hp.offset_lt hlt hbase.le
    omega
  rw [hplace base hle, hplace q le_rfl]
  exact hdelta htype ofs data base hread hbase heq

def chunksWith (p : SourcePack) (before : List UInt8) (s : ReuseState) (q : Nat) : List ReusedChunk :=
  recordReusedObject s.chunks (p.packPosToOffset q)
    (p.packPosToOffset q - ((s.out.length : Int) - (before.length - packHeaderSize : Nat)))

lemma Reused.chunksWith_spec (h : Reused allowOfsDelta p before l s record) (hp : p.WellFormed) {q : Nat}
    (hq : q < p.numObjects) (hl : ∀ x ∈ l, x < q) :
    (chunksWith p before s q).Pairwise (fun c d => c.original < d.original) ∧
      (∀ c ∈ chunksWith p before s q, c.original ≤ p.packPosToOffset q) ∧
      ∀ x, x = q ∨ x ∈ l → MovedBy (chunksWith p before s q) (p.packPosToOffset x)
        (p.packPosToOffset x - ((newOffset before record l x : Int) - (before.length - packHeaderSize : Nat))) := by
  have hbehind : ∀ c ∈ s.chunks, c.original < p.packPosToOffset q := fun c hc => by
    obtain ⟨x, hx, hle⟩ := h.chunk_start c hc
    exact hle.trans_lt (hp.offset_lt (hl x hx) hq.le)
  have hlen : s.out.length = newOffset before record l q := by rw [newOffset_last hl, h.out_eq]
  obtain ⟨hsorted, hle, hmoved, hkept⟩ := recordReusedObject_spec
    (p.packPosToOffset q - ((s.out.length : Int) - (before.length - packHeaderSize : Nat))) h.sorted hbehind
  refine ⟨hsorted, hle, fun x hx => ?_⟩
  rcases hx with rfl | hx
  · rw [← hlen]
    exact hmoved
  · exact hkept _ _ (hp.offset_lt (hl x hx) hq.le) (h.moved x hx)

lemma Reused.snoc (h : Reused allowOfsDelta p before l s record) (hp : p.WellFormed) {q : Nat} (hq : q < p.numObjects)
    (hl : ∀ x ∈ l, x < q) {r : List UInt8} (hr : Emitted allowOfsDelta p (newOffset before record l) q r)
    (hshort : allowOfsDelta = true → r.length ≤ (p.record q).length) :
    Reused allowOfsDelta p before (l ++ [q]) ⟨s.out ++ r, chunksWith p before s q⟩ (Function.update record q r) := by
  obtain ⟨hsorted, hle, hmoved⟩ := h.chunksWith_spec hp hq hl
  have hother : ∀ x ∈ l, Function.update record q r x = record x := fun x hx =>
    Function.update_of_ne (hl x hx).ne _ _
  have hself : Function.update record q r q = r := Function.update_self _ _ _
  have hplace : ∀ x, x ≤ q → newOffset before (Function.update record q r) (l ++ [q]) x = newOffset before record l x :=
    fun x hx => newOffset_snoc hother hx
  have hmem : ∀ x, x ∈ l ++ [q] → x = q ∨ x ∈ l := fun x hx => by
    rcases List.mem_append.mp hx with hx | hx
    · exact .inr hx
    · exact .inl (List.mem_singleton.mp hx)
  have hxq : ∀ x, x ∈ l ++ [q] → x ≤ q := fun x hx => by
    rcases hmem x hx with rfl | hx
    · exact le_rfl
    · exact (hl x hx).le
  refine ⟨?_, ?_, fun x hx => (hxq x hx).trans_lt hq, fun x hx => ?_, fun hallow x hx => ?_, hsorted,
    fun c hc => ⟨q, List.mem_append_right _ List.mem_cons_self, hle c hc⟩, fun x hx => ?_⟩
  · rw [List.map_append, List.flatten_append, List.map_singleton, List.flatten_singleton, hself,
      List.map_congr_left hother, ← List.append_assoc, ← h.out_eq]
  · exact List.pairwise_append.mpr ⟨h.ascending, List.pairwise_singleton _ _, fun x hx y hy =>
      List.mem_singleton.mp hy ▸ hl x hx⟩
  · have hemitted : Emitted allowOfsDelta p (newOffset before record l) x (Function.update record q r x) := by
      rcases hmem x hx with rfl | hx
      · rw [hself]
        exact hr
      · rw [hother x hx]
        exact h.emitted x hx
    exact hemitted.congr hp ((hxq x hx).trans hq.le) fun y hy => hplace y (hy.trans (hxq x hx))
  · rcases hmem x hx with rfl | hx
    · rw [hself]
      exact hshort hallow
    · rw [hother x hx]
      exact h.shorter hallow x hx
  · rw [hplace x (hxq x hx)]
    exact hmoved x (hmem x hx)

lemma getOfsDeltaBase_eq (hp : p.WellFormed) {q : Nat} (hq : q < p.numObjects) {used ofs base : Nat} {data : List UInt8}
    (hused : used ≤ (p.record q).length) (hread : readOfsDelta ((p.record q).drop used) = some (ofs, data))
    (hbase : base < q) (heq : p.packPosToOffset base + ofs = p.packPosToOffset q) :
    ∃ place, getOfsDeltaBase p (p.packPosToOffset q + used) (p.packPosToOffset q) =
        some (p.packPosToOffset base, place) ∧ p.copy place (p.packPosToOffset (q + 1) - place) = data := by
  have hfirst : 12 ≤ p.packPosToOffset base := by
    have hle := hp.offset_le (Nat.zero_le base) (hbase.le.trans hq.le)
    rw [hp.first] at hle
    exact hle
  have hlt := hp.offset_lt hbase hq.le
  have hnext := (hp.offset_le hq le_rfl).trans hp.last
  have hdrop : p.bytes.drop (p.packPosToOffset q + used) =
      (p.record q).drop used ++ p.bytes.drop (p.packPosToOffset (q + 1)) := by
    rw [← List.drop_drop, hp.drop_offset hq, List.drop_append_of_le_length hused]
  have hread' := readOfsDelta_append hread (p.bytes.drop (p.packPosToOffset (q + 1)))
  rw [← hdrop] at hread'
  have hsuffix : data ++ p.bytes.drop (p.packPosToOffset (q + 1)) <:+ p.bytes :=
    (readOfsDelta_suffix hread').trans (List.drop_suffix _ _)
  refine ⟨p.bytes.length - (data ++ p.bytes.drop (p.packPosToOffset (q + 1))).length, ?_, ?_⟩
  · rw [getOfsDeltaBase, hread', Option.bind_some, if_pos (by dsimp only; omega)]
    rw [show p.packPosToOffset q - ofs = p.packPosToOffset base by omega]
  · have hlen := hsuffix.length_le
    have hshift : p.packPosToOffset (q + 1) -
        (p.bytes.length - (data ++ p.bytes.drop (p.packPosToOffset (q + 1))).length) = data.length := by
      rw [List.length_append, List.length_drop] at hlen ⊢
      have hnext' : p.packPosToOffset (q + 1) ≤ p.bytes.length := hnext
      omega
    rw [SourcePack.copy, hshift, ← List.suffix_iff_eq_drop.mp hsuffix, List.take_left']
    rfl

theorem writeReusedPackOne_spec (h : Reused allowOfsDelta p before l s record) (hp : p.WellFormed)
    {q : Nat} (hq : q < p.numObjects) (hl : ∀ x ∈ l, x < q)
    (hclosed : allowOfsDelta = true → ∀ size body ofs data base, IsRecord (p.record q) objOfsDelta size body →
      readOfsDelta body = some (ofs, data) → base < p.numObjects → p.packPosToOffset base + ofs = p.packPosToOffset q →
        base ∈ l) :
    ∃ s' record', writeReusedPackOne allowOfsDelta p (before.length - packHeaderSize) s q = some s' ∧
      Reused allowOfsDelta p before (l ++ [q]) s' record' := by
  obtain ⟨type, size, body, hrecord, hparse⟩ := hp.parse q hq
  obtain ⟨used, hunpack, hbody⟩ := hrecord
  obtain ⟨-, hsize, -, hused, hencode⟩ := unpackObjectHeaderBuffer_bounds hunpack
  have hunpack' : unpackObjectHeaderBuffer (p.bytes.drop (p.packPosToOffset q)) = some (type, size, used) := by
    rw [hp.drop_offset hq]
    exact unpackObjectHeaderBuffer_append hunpack _
  -- the header of a record is read in one way only
  have hunique : ∀ type' size' body', IsRecord (p.record q) type' size' body' →
      type' = type ∧ size' = size ∧ body' = body := fun type' size' body' hrec => by
    obtain ⟨used', hunpack', hbody'⟩ := hrec
    rw [hunpack] at hunpack'
    simp only [Option.some_inj, Prod.mk.injEq] at hunpack'
    obtain ⟨rfl, rfl, rfl⟩ := hunpack'
    exact ⟨rfl, rfl, hbody'.symm.trans hbody⟩
  have hcopy : p.copy (p.packPosToOffset q) (p.packPosToOffset (q + 1) - p.packPosToOffset q) = p.record q := rfl
  simp only [writeReusedPackOne, hunpack', Option.bind_some, hcopy]
  rw [← chunksWith]
  by_cases htype : type = objOfsDelta
  · obtain ⟨ofs, data, base, hread, hbase, heq⟩ := hparse htype
    obtain ⟨place, hget, hdata⟩ := getOfsDeltaBase_eq hp hq hused (by rw [hbody]; exact hread) hbase heq
    obtain ⟨hofs, hdataLen, hshorter⟩ := readOfsDelta_bounds hread
    have hbodyLen : used + body.length = (p.record q).length := by
      rw [← hbody, List.length_drop]
      omega
    -- and so are the distance and the base
    have hbaseUnique : ∀ ofs' data' base', readOfsDelta body = some (ofs', data') → base' < p.numObjects →
        p.packPosToOffset base' + ofs' = p.packPosToOffset q → ofs' = ofs ∧ data' = data ∧ base' = base :=
      fun ofs' data' base' hread' hbase' heq' => by
        rw [hread] at hread'
        simp only [Option.some_inj, Prod.mk.injEq] at hread'
        obtain ⟨rfl, rfl⟩ := hread'
        exact ⟨rfl, rfl, hp.offset_inj hbase'.le (hbase.le.trans hq.le) (by omega)⟩
    rw [if_pos htype, hget, Option.bind_some]
    by_cases hallow : allowOfsDelta = false
    · rw [if_pos hallow, hp.offsetToPackPos_eq (hbase.le.trans hq.le), Option.map_some]
      have hsnoc := @Reused.snoc _ _ _ _ _ _ h hp q hq hl
        (encodeInPackObjectHeader objRefDelta size ++ p.packPosToId base ++ data) ?_ (fun hfalse => by
          rw [hallow] at hfalse
          cases hfalse)
      · rw [hdata, List.append_assoc, List.append_assoc, ← List.append_assoc (encodeInPackObjectHeader _ _)]
        exact ⟨_, _, rfl, hsnoc⟩
      · intro type' size' body' hrec
        obtain ⟨rfl, rfl, rfl⟩ := hunique type' size' body' hrec
        refine ⟨fun hne => absurd htype hne, fun _ ofs' data' base' hread' hbase' heq' => ⟨fun htrue => ?_, fun _ => ?_⟩⟩
        · rw [hallow] at htrue
          cases htrue
        · obtain ⟨rfl, rfl, rfl⟩ := hbaseUnique ofs' data' base' hread' hbase' heq'
          rw [List.append_assoc]
          exact isRecord_encode (by decide) hsize _
    · rw [Bool.not_eq_false] at hallow
      have hbaseMem : base ∈ l :=
        hclosed hallow size body ofs data base (htype ▸ ⟨used, hunpack, hbody⟩) hread (hbase.trans hq) heq
      obtain ⟨hsorted, -, hmoved⟩ := h.chunksWith_spec hp hq hl
      obtain ⟨_, c, _, hsplit, hle, hlt, hdiff⟩ := hmoved q (.inl rfl)
      obtain ⟨_, cb, _, hsplitBase, hleBase, hltBase, hdiffBase⟩ := hmoved base (.inr hbaseMem)
      obtain ⟨hplaces, hdistance⟩ := @newOffset_sub_le p hp before record l h.ascending (h.shorter hallow) base q
        hbase.le hl hq.le
      have hchanged : ∀ r, (∃ body' ofs', IsRecord r objOfsDelta size body' ∧ readOfsDelta body' = some (ofs', data) ∧
          newOffset before record l base + ofs' = newOffset before record l q) →
          Emitted allowOfsDelta p (newOffset before record l) q r := fun r hr type' size' body' hrec => by
        obtain ⟨rfl, rfl, rfl⟩ := hunique type' size' body' hrec
        refine ⟨fun hne => absurd htype hne, fun _ ofs' data' base' hread' hbase' heq' => ⟨fun _ => ?_, fun hfalse => ?_⟩⟩
        · obtain ⟨rfl, rfl, rfl⟩ := hbaseUnique ofs' data' base' hread' hbase' heq'
          exact hr
        · rw [hallow] at hfalse
          cases hfalse
      rw [if_neg (by rw [hallow]; decide), findReusedOffset_of_split hsorted hsplit hle hlt, Option.bind_some,
        findReusedOffset_of_split hsorted hsplitBase hleBase hltBase, Option.map_some, hdiff, hdiffBase]
      split_ifs with hfixup
      · have hdist : ((p.packPosToOffset q : Int) - p.packPosToOffset base -
            (p.packPosToOffset q - ((newOffset before record l q : Int) - (before.length - packHeaderSize : Nat)) -
              (p.packPosToOffset base - ((newOffset before record l base : Int) -
                (before.length - packHeaderSize : Nat))))).toNat =
            newOffset before record l q - newOffset before record l base := by omega
        have hdistLe : newOffset before record l q - newOffset before record l base ≤ ofs := by omega
        have hsnoc := @Reused.snoc _ _ _ _ _ _ h hp q hq hl
          (encodeInPackObjectHeader objOfsDelta size ++
            encodeVarint (newOffset before record l q - newOffset before record l base) ++ data)
          (hchanged _ ⟨encodeVarint (newOffset before record l q - newOffset before record l base) ++ data, _,
            ?_, readOfsDelta_encode (hdistLe.trans_lt hofs) data, Nat.add_sub_cancel' hplaces⟩) (fun _ => ?_)
        · rw [hdist, hdata, List.append_assoc, List.append_assoc, ← List.append_assoc (encodeInPackObjectHeader _ _)]
          exact ⟨_, _, rfl, hsnoc⟩
        · rw [List.append_assoc]
          exact isRecord_encode (by decide) hsize _
        · have hheader := hencode objOfsDelta
          have hvarint := hshorter _ hdistLe
          rw [List.length_append, List.length_append]
          omega
      · refine ⟨_, _, rfl, h.snoc hp hq hl (hchanged _ ⟨body, ofs, htype ▸ ⟨used, hunpack, hbody⟩, hread, ?_⟩)
          fun _ => le_rfl⟩
        omega
  · rw [if_neg htype]
    refine ⟨_, _, rfl, h.snoc hp hq hl ?_ fun _ => le_rfl⟩
    intro type' size' body' hrec
    obtain ⟨rfl, rfl, rfl⟩ := hunique type' size' body' hrec
    exact ⟨fun _ => rfl, fun htype' => absurd htype' htype⟩

end Emitting

section Loops

def markedBit (words : List UInt64) (bit : Nat) : Bool :=
  (words.getD (bit / bitsInEword) 0).toNat.testBit (bit % bitsInEword)

def markedBits (b : BitmappedPack) (words : List UInt64) (upto : Nat) : List Nat :=
  (List.range upto).filter fun bit =>
    markedBit words bit && (b.bitmapPos ≤ bit && bit < b.bitmapPos + b.bitmapNr)

/-- The bits of a pack are in the order of its objects: the bit itself is the pack position, or the
MIDX has the offset of the object. -/
structure BitmappedPack.Placed (b : BitmappedPack) (packPos : Nat → Nat) : Prop where
  pack : b.p.WellFormed
  direct : b.bitmapPos = 0 → ∀ bit, packPos bit = bit
  midx : b.bitmapPos ≠ 0 → ∃ offset, b.fromMidx = some offset ∧
    ∀ bit, b.bitmapPos ≤ bit → bit < b.bitmapPos + b.bitmapNr → offset bit = b.p.packPosToOffset (packPos bit)
  bound : ∀ bit, b.bitmapPos ≤ bit → bit < b.bitmapPos + b.bitmapNr → packPos bit < b.p.numObjects
  mono : ∀ bit bit', b.bitmapPos ≤ bit → bit < bit' → bit' < b.bitmapPos + b.bitmapNr → packPos bit < packPos bit'

def BasesMarked (b : BitmappedPack) (packPos : Nat → Nat) (words : List UInt64) : Prop :=
  ∀ bit ∈ markedBits b words (words.length * bitsInEword), ∀ size body ofs data base,
    IsRecord (b.p.record (packPos bit)) objOfsDelta size body → readOfsDelta body = some (ofs, data) →
      base < b.p.numObjects → b.p.packPosToOffset base + ofs = b.p.packPosToOffset (packPos bit) →
        ∃ bit' ∈ markedBits b words (words.length * bitsInEword), packPos bit' = base

variable {b : BitmappedPack} {packPos : Nat → Nat} {words : List UInt64} {allowOfsDelta : Bool} {out : List UInt8}

lemma mem_markedBits {upto bit : Nat} :
    bit ∈ markedBits b words upto ↔
      bit < upto ∧ markedBit words bit = true ∧ b.bitmapPos ≤ bit ∧ bit < b.bitmapPos + b.bitmapNr := by
  rw [markedBits, List.mem_filter, List.mem_range, Bool.and_eq_true, Bool.and_eq_true, decide_eq_true_iff,
    decide_eq_true_iff]

lemma markedBits_skip {upto upto' : Nat} (hle : upto ≤ upto')
    (hskip : ∀ bit, upto ≤ bit → bit < upto' →
      markedBit words bit = false ∨ bit < b.bitmapPos ∨ b.bitmapPos + b.bitmapNr ≤ bit) :
    markedBits b words upto' = markedBits b words upto := by
  induction upto', hle using Nat.le_induction with
  | base => rfl
  | succ n hle ih =>
    rw [← ih fun bit hbit hlt => hskip bit hbit (Nat.lt_succ_of_lt hlt), markedBits, List.range_succ, List.filter_append,
      List.filter_singleton, ← markedBits]
    have hfalse : (markedBit words n && (b.bitmapPos ≤ n && n < b.bitmapPos + b.bitmapNr)) = false := by
      rw [Bool.and_eq_false_iff, Bool.and_eq_false_iff, decide_eq_false_iff_not, decide_eq_false_iff_not]
      rcases hskip n hle (Nat.lt_succ_self n) with h | h | h
      · exact .inl h
      · exact .inr (.inl (Nat.not_le.mpr h))
      · exact .inr (.inr (Nat.not_lt.mpr h))
    rw [hfalse]
    exact List.append_nil _

lemma markedBits_succ {bit : Nat} (hmark : markedBit words bit = true) (hle : b.bitmapPos ≤ bit)
    (hlt : bit < b.bitmapPos + b.bitmapNr) : markedBits b words (bit + 1) = markedBits b words bit ++ [bit] := by
  rw [markedBits, List.range_succ, List.filter_append, List.filter_singleton, ← markedBits]
  have htrue : (markedBit words bit && (b.bitmapPos ≤ bit && bit < b.bitmapPos + b.bitmapNr)) = true := by
    rw [hmark, decide_eq_true hle, decide_eq_true hlt]
    rfl
  rw [htrue]
  rfl

def ReusedUpto (allowOfsDelta : Bool) (b : BitmappedPack) (packPos : Nat → Nat) (words : List UInt64) (out : List UInt8)
    (upto : Nat) (s : ReuseState) : Prop :=
  ∃ record, Reused allowOfsDelta b.p out ((markedBits b words upto).map packPos) s record

lemma ewahBitCtz64_spec {x : Nat} (hx : x ≠ 0) :
    x.testBit (ewahBitCtz64 x) = true ∧ ∀ i < ewahBitCtz64 x, x.testBit i = false := by
  induction x using Nat.strong_induction_on with
  | _ x ih =>
    rw [ewahBitCtz64]
    split_ifs with h
    · refine ⟨?_, fun i hi => absurd hi (Nat.not_lt_zero i)⟩
      rw [Nat.testBit_zero, decide_eq_true_iff]
      exact h.resolve_left hx
    · rw [not_or] at h
      obtain ⟨hbit, hbelow⟩ := ih (x / 2) (by omega) (by omega)
      refine ⟨by rw [Nat.testBit_succ, hbit], fun i hi => ?_⟩
      cases i with
      | zero =>
        rw [Nat.testBit_zero, decide_eq_false_iff_not]
        exact h.2
      | succ i =>
        rw [Nat.testBit_succ]
        exact hbelow i (Nat.lt_of_succ_lt_succ hi)

lemma bitToPackPos_eq (hb : b.Placed packPos) {bit : Nat} (hle : b.bitmapPos ≤ bit)
    (hlt : bit < b.bitmapPos + b.bitmapNr) : bitToPackPos b bit = some (packPos bit) := by
  rw [bitToPackPos]
  split_ifs with hpos
  · obtain ⟨offset, hoffset, hplace⟩ := hb.midx hpos
    rw [hoffset, Option.bind_some, hplace bit hle hlt, hb.pack.offsetToPackPos_eq (hb.bound bit hle hlt).le]
  · rw [hb.direct (not_not.mp hpos)]

lemma reusedUpto_succ (hb : b.Placed packPos) (hclosed : BasesMarked b packPos words) {bit : Nat} {s : ReuseState}
    (h : ReusedUpto allowOfsDelta b packPos words out bit s) (hbit : bit < words.length * bitsInEword)
    (hmark : markedBit words bit = true) (hle : b.bitmapPos ≤ bit) (hlt : bit < b.bitmapPos + b.bitmapNr) :
    ∃ s', writeReusedPackOne allowOfsDelta b.p (out.length - packHeaderSize) s (packPos bit) = some s' ∧
      ReusedUpto allowOfsDelta b packPos words out (bit + 1) s' := by
  obtain ⟨record, h⟩ := h
  have hl : ∀ x ∈ (markedBits b words bit).map packPos, x < packPos bit := fun x hx => by
    obtain ⟨bit', hbit', rfl⟩ := List.mem_map.mp hx
    obtain ⟨hlt', -, hle', -⟩ := mem_markedBits.mp hbit'
    exact hb.mono bit' bit hle' hlt' hlt
  obtain ⟨s', record', hone, h'⟩ := writeReusedPackOne_spec h hb.pack (hb.bound bit hle hlt) hl
    fun _ size body ofs data base hrecord hread hbase heq => by
      obtain ⟨bit', hbit', rfl⟩ := hclosed bit (mem_markedBits.mpr ⟨hbit, hmark, hle, hlt⟩) size body ofs data base
        hrecord hread hbase heq
      obtain ⟨-, hmark', hle', hlt'⟩ := mem_markedBits.mp hbit'
      refine List.mem_map.mpr ⟨bit', mem_markedBits.mpr ⟨?_, hmark', hle', hlt'⟩, rfl⟩
      -- the base of an offset delta is in front of it
      obtain ⟨type, size', body', hrec, hparse⟩ := hb.pack.parse (packPos bit) (hb.bound bit hle hlt)
      obtain ⟨used, hunpack, hbody⟩ := hrecord
      obtain ⟨used', hunpack', hbody'⟩ := hrec
      rw [hunpack] at hunpack'
      simp only [Option.some_inj, Prod.mk.injEq] at hunpack'
      obtain ⟨rfl, rfl, rfl⟩ := hunpack'
      obtain ⟨ofs', data', base', hread', hbase', heq'⟩ := hparse rfl
      rw [← hbody', hbody, hread] at hread'
      simp only [Option.some_inj, Prod.mk.injEq] at hread'
      obtain ⟨rfl, rfl⟩ := hread'
      have hsame := hb.pack.offset_inj hbase.le (hbase'.le.trans (hb.bound bit hle hlt).le) (by omega)
      by_contra hnot
      rcases Nat.eq_or_lt_of_le (Nat.le_of_not_lt hnot) with rfl | hgt
      · omega
      · have hmono := hb.mono bit bit' hle hgt hlt'
        omega
  refine ⟨s', hone, record', ?_⟩
  rw [markedBits_succ hmark hle hlt, List.map_append, List.map_singleton]
  exact h'

lemma reusedWordLoop_spec (hb : b.Placed packPos) (hclosed : BasesMarked b packPos words) {i offset : Nat} {word : UInt64}
    (hword : words[i]? = some word) (hoffset : offset ≤ bitsInEword) {s : ReuseState}
    (h : ReusedUpto allowOfsDelta b packPos words out (i * bitsInEword + offset) s) :
    ∃ r, reusedWordLoop allowOfsDelta b (out.length - packHeaderSize) (i * bitsInEword) word.toNat offset s = some r ∧
      (r.1 = true → ReusedUpto allowOfsDelta b packPos words out (words.length * bitsInEword) r.2) ∧
      (r.1 = false → ReusedUpto allowOfsDelta b packPos words out ((i + 1) * bitsInEword) r.2) := by
  have hi : i < words.length := (List.getElem?_eq_some_iff.mp hword).1
  have hend : (i + 1) * bitsInEword ≤ words.length * bitsInEword := Nat.mul_le_mul_right _ hi
  have hbits : ∀ j < bitsInEword, markedBit words (i * bitsInEword + j) = word.toNat.testBit j := fun j hj => by
    have hdiv : (i * bitsInEword + j) / bitsInEword = i := by simp only [bitsInEword] at hj ⊢; omega
    have hmod : (i * bitsInEword + j) % bitsInEword = j := by simp only [bitsInEword] at hj ⊢; omega
    rw [markedBit, hdiv, hmod, List.getD_eq_getElem?_getD, hword, Option.getD_some]
  have hskip : ∀ {upto upto' : Nat} {s : ReuseState}, upto ≤ upto' →
      (∀ bit, upto ≤ bit → bit < upto' →
        markedBit words bit = false ∨ bit < b.bitmapPos ∨ b.bitmapPos + b.bitmapNr ≤ bit) →
      ReusedUpto allowOfsDelta b packPos words out upto s → ReusedUpto allowOfsDelta b packPos words out upto' s :=
    fun hle hno ⟨record, hr⟩ => ⟨record, by rw [markedBits_skip hle hno]; exact hr⟩
  induction hn : bitsInEword - offset using Nat.strong_induction_on generalizing offset s with
  | _ n ih =>
    have hshift : ∀ j, offset ≤ j → word.toNat.testBit j = (word.toNat / 2 ^ offset).testBit (j - offset) := fun j hj => by
      rw [Nat.testBit_div_two_pow, Nat.sub_add_cancel hj]
    rw [reusedWordLoop]
    split_ifs with hlt hzero
    · refine ⟨_, rfl, fun hfalse => (by cases hfalse), fun _ => hskip (by rw [Nat.succ_mul]; omega) (fun bit hle hbit => ?_) h⟩
      obtain ⟨j, rfl⟩ := Nat.exists_eq_add_of_le ((Nat.le_add_right _ _).trans hle)
      rw [Nat.succ_mul] at hbit
      refine .inl ?_
      rw [hbits j (by omega), hshift j (by omega), hzero, Nat.zero_testBit]
    · obtain ⟨hset, hbelow⟩ := ewahBitCtz64_spec hzero
      set bit := offset + ewahBitCtz64 (word.toNat / 2 ^ offset) with hbitDef
      have hmark : word.toNat.testBit bit = true := by
        rw [hshift bit (by omega), hbitDef, Nat.add_sub_cancel_left]
        exact hset
      have hbit : bit < bitsInEword := by
        by_contra hge
        have hsmall : word.toNat < 2 ^ bit :=
          word.toNat_lt.trans_le (Nat.pow_le_pow_right (by decide) (Nat.le_of_not_lt hge))
        rw [Nat.testBit_lt_two_pow hsmall] at hmark
        cases hmark
      have hat : ReusedUpto allowOfsDelta b packPos words out (i * bitsInEword + bit) s := by
        refine hskip (by omega) (fun x hle hx => ?_) h
        obtain ⟨j, rfl⟩ := Nat.exists_eq_add_of_le ((Nat.le_add_right _ _).trans hle)
        refine .inl ?_
        rw [hbits j (by omega), hshift j (by omega)]
        exact hbelow _ (by omega)
      dsimp only
      split_ifs with hbefore hbehind
      · refine ih (bitsInEword - (bit + 1)) (by omega) hbit (hskip (Nat.le_succ _) (fun x hle hx => ?_) hat) rfl
        exact .inr (.inl (by omega))
      · refine ⟨_, rfl, fun _ => hskip ?_ (fun x hle hx => .inr (.inr (hbehind.trans hle))) hat, fun hfalse => (by cases hfalse)⟩
        rw [Nat.succ_mul] at hend
        omega
      · obtain ⟨s', hone, h'⟩ := reusedUpto_succ hb hclosed hat (by rw [Nat.succ_mul] at hend; omega)
          (by rw [hbits bit hbit]; exact hmark) (Nat.le_of_not_lt hbefore) (Nat.lt_of_not_le hbehind)
        rw [bitToPackPos_eq hb (Nat.le_of_not_lt hbefore) (Nat.lt_of_not_le hbehind), Option.bind_some, hone,
          Option.bind_some]
        exact ih (bitsInEword - (bit + 1)) (by omega) hbit h' rfl
    · refine ⟨_, rfl, fun hfalse => (by cases hfalse), fun _ => ?_⟩
      have hfull : offset = bitsInEword := by omega
      rw [Nat.succ_mul, ← hfull]
      rw [hfull] at h ⊢
      exact h

lemma reusedWordsLoop_spec (hb : b.Placed packPos) (hclosed : BasesMarked b packPos words) {i : Nat} {rest : List UInt64}
    (hrest : words.drop i = rest) (hi : i ≤ words.length) {s : ReuseState}
    (h : ReusedUpto allowOfsDelta b packPos words out (i * bitsInEword) s) :
    ∃ s', reusedWordsLoop allowOfsDelta b (out.length - packHeaderSize) i rest s = some s' ∧
      ReusedUpto allowOfsDelta b packPos words out (words.length * bitsInEword) s' := by
  induction rest generalizing i s with
  | nil =>
    have heq : i = words.length := hi.antisymm (List.drop_eq_nil_iff.mp hrest)
    exact ⟨s, rfl, heq ▸ h⟩
  | cons word rest ih =>
    have hword : words[i]? = some word := by rw [← List.head?_drop, hrest, List.head?_cons]
    obtain ⟨r, hloop, hdone, hnext⟩ := reusedWordLoop_spec hb hclosed hword (Nat.zero_le _) h
    rw [reusedWordsLoop, hloop, Option.bind_some]
    cases hr : r.1 with
    | true => exact ⟨_, if_pos rfl, hdone hr⟩
    | false =>
      rw [if_neg (by decide)]
      have hdrop : words.drop (i + 1) = rest := by rw [← List.drop_drop, hrest, List.drop_one, List.tail_cons]
      exact ih hdrop (List.getElem?_eq_some_iff.mp hword).1 (hnext hr)

lemma fullWord_testBit {i : Nat} (hi : i < bitsInEword) : fullWord.toNat.testBit i = true := by
  rw [show fullWord.toNat = 2 ^ 64 - 1 by decide, Nat.testBit_two_pow_sub_one]
  exact decide_eq_true hi

lemma flatten_records {p : SourcePack} (hp : p.WellFormed) {k : Nat} (hk : k ≤ p.numObjects) :
    ((List.range k).map p.record).flatten = p.copy packHeaderSize (p.packPosToOffset k - packHeaderSize) := by
  induction k with
  | zero =>
    rw [hp.first, Nat.sub_self]
    rfl
  | succ k ih =>
    have hle := hp.offset_le (Nat.zero_le k) (Nat.le_of_succ_le hk)
    rw [hp.first] at hle
    have hstep := hp.mono k hk
    have hlen : p.packPosToOffset (k + 1) - packHeaderSize =
        (p.packPosToOffset k - packHeaderSize) + (p.packPosToOffset (k + 1) - p.packPosToOffset k) := by omega
    rw [List.range_succ, List.map_append, List.flatten_append, ih (Nat.le_of_succ_le hk), List.map_singleton,
      List.flatten_singleton, SourcePack.copy, SourcePack.copy, hlen, List.take_add, List.drop_drop, Nat.add_sub_cancel' hle]
    rfl

lemma newOffset_range {p : SourcePack} (hp : p.WellFormed) (before : List UInt8) {k q : Nat} (hq : q ≤ k)
    (hk : k ≤ p.numObjects) :
    newOffset before p.record (List.range k) q + packHeaderSize = before.length + p.packPosToOffset q := by
  have hfilter : (List.range k).filter (· < q) = List.range q := by
    induction k, hq using Nat.le_induction with
    | base => exact List.filter_eq_self.mpr fun x hx => decide_eq_true (List.mem_range.mp hx)
    | succ k hle ih =>
      rw [List.range_succ, List.filter_append, ih (by omega), List.filter_singleton, decide_eq_false (by omega)]
      exact List.append_nil _
  have hlen := congrArg List.length (flatten_records hp (hq.trans hk))
  have hfirst := hp.offset_le (Nat.zero_le q) (hq.trans hk)
  have hlast : p.packPosToOffset q ≤ p.bytes.length := (hp.offset_le (hq.trans hk) le_rfl).trans hp.last
  rw [hp.first] at hfirst
  rw [List.length_flatten, List.map_map, SourcePack.copy, List.length_take, List.length_drop] at hlen
  rw [newOffset, hfilter, show (fun x => (p.record x).length) = List.length ∘ p.record from rfl, hlen]
  omega

lemma reused_range {p : SourcePack} (hp : p.WellFormed) {before : List UInt8} (hbefore : packHeaderSize ≤ before.length)
    {k : Nat} (hk : k ≤ p.numObjects) (hpos : 0 < k) :
    Reused true p before (List.range k)
      ⟨before ++ p.copy packHeaderSize (p.packPosToOffset k - packHeaderSize), [⟨packHeaderSize, 0⟩]⟩ p.record := by
  refine ⟨by rw [flatten_records hp hk], List.pairwise_lt_range, fun q hq => (List.mem_range.mp hq).trans_le hk,
    fun q hq => ?_, fun _ q hq => le_rfl, List.pairwise_singleton _ _, fun c hc => ⟨0, List.mem_range.mpr hpos, ?_⟩,
    fun q hq => ⟨[], _, [], rfl, ?_, fun d hd => absurd hd List.not_mem_nil, ?_⟩⟩
  · intro type size body hrecord
    refine ⟨fun _ => rfl, fun htype ofs data base hread hbase heq => ⟨fun _ => ?_, fun hfalse => (by cases hfalse)⟩⟩
    have hqk := List.mem_range.mp hq
    have hbaseLe : base ≤ q := Nat.le_of_not_lt fun hlt => by
      have hoff := hp.offset_lt hlt hbase.le
      omega
    refine ⟨body, ofs, htype ▸ hrecord, hread, ?_⟩
    have hplace := newOffset_range hp before hqk.le hk
    have hplaceBase := newOffset_range hp before (hbaseLe.trans hqk.le) hk
    omega
  · rw [List.mem_singleton.mp hc, hp.first]
  · rw [← hp.first]
    exact hp.offset_le (Nat.zero_le q) ((List.mem_range.mp hq).le.trans hk)
  · have hplace := newOffset_range hp before (List.mem_range.mp hq).le hk
    dsimp only
    omega

lemma markedBits_verbatim (hpos : b.bitmapPos = 0) :
    markedBits b words (((words.take (b.bitmapNr / bitsInEword)).takeWhile (· = fullWord)).length * bitsInEword) =
      List.range (((words.take (b.bitmapNr / bitsInEword)).takeWhile (· = fullWord)).length * bitsInEword) := by
  set full := (words.take (b.bitmapNr / bitsInEword)).takeWhile (· = fullWord) with hfull
  have hprefix : full <+: words := (List.takeWhile_prefix _).trans (List.take_prefix _ _)
  have hlen : full.length ≤ b.bitmapNr / bitsInEword :=
    ((List.takeWhile_prefix _).length_le).trans (List.length_take_le _ _)
  refine List.filter_eq_self.mpr fun bit hbit => ?_
  have hlt := List.mem_range.mp hbit
  have hdiv : bit / bitsInEword < full.length := Nat.div_lt_of_lt_mul (by rw [Nat.mul_comm]; exact hlt)
  have hword : words.getD (bit / bitsInEword) 0 = fullWord := by
    have hget := hprefix.getElem hdiv
    rw [List.getD_eq_getElem?_getD, List.getElem?_eq_getElem (hdiv.trans_le hprefix.length_le), Option.getD_some, ← hget]
    have hmem : full[bit / bitsInEword] ∈ (words.take (b.bitmapNr / bitsInEword)).takeWhile (· = fullWord) :=
      List.getElem_mem hdiv
    have himp := List.mem_takeWhile_imp hmem
    exact of_decide_eq_true himp
  have hnr : bit < b.bitmapNr := hlt.trans_le ((Nat.mul_le_mul_right _ hlen).trans (Nat.div_mul_le_self _ _))
  rw [markedBit, hword, fullWord_testBit (Nat.mod_lt _ (by decide)), Bool.true_and, Bool.and_eq_true,
    decide_eq_true_iff, decide_eq_true_iff]
  omega

/-- The objects that are marked are emitted once each in the order of the pack; the offset deltas among
them lead to the new places of their bases, or have become deltas with the ids of their bases. -/
theorem writeReusedPack_spec (allowOfsDelta : Bool) (hb : b.Placed packPos) (hclosed : BasesMarked b packPos words)
    (hwords : b.bitmapPos = 0 → b.bitmapNr / bitsInEword ≤ words.length) (hout : packHeaderSize ≤ out.length) :
    ∃ s record, writeReusedPack allowOfsDelta b words out = some s ∧
      s.out = out ++ (((markedBits b words (words.length * bitsInEword)).map packPos).map record).flatten ∧
      ((markedBits b words (words.length * bitsInEword)).map packPos).Pairwise (· < ·) ∧
      ∀ q ∈ (markedBits b words (words.length * bitsInEword)).map packPos,
        Emitted allowOfsDelta b.p
          (newOffset out record ((markedBits b words (words.length * bitsInEword)).map packPos)) q (record q) := by
  have hfrom : ∀ i s, i ≤ words.length → ReusedUpto allowOfsDelta b packPos words out (i * bitsInEword) s →
      ∃ s', reusedWordsLoop allowOfsDelta b (out.length - packHeaderSize) i (words.drop i) s = some s' ∧
        ReusedUpto allowOfsDelta b packPos words out (words.length * bitsInEword) s' := fun i s hi h =>
    reusedWordsLoop_spec hb hclosed rfl hi h
  have hempty : ∀ upto, upto ≤ b.bitmapPos → ReusedUpto allowOfsDelta b packPos words out upto ⟨out, []⟩ :=
    fun upto hupto => by
      have hnone : markedBits b words upto = [] :=
        (markedBits_skip (Nat.zero_le _) fun bit _ hbit => .inr (.inl (hbit.trans_le hupto))).trans rfl
      refine ⟨b.p.record, ?_⟩
      rw [hnone]
      exact ⟨(List.append_nil _).symm, List.Pairwise.nil, fun q hq => absurd hq List.not_mem_nil,
        fun q hq => absurd hq List.not_mem_nil, fun _ q hq => absurd hq List.not_mem_nil, List.Pairwise.nil,
        fun c hc => absurd hc List.not_mem_nil, fun q hq => absurd hq List.not_mem_nil⟩
  have hbits : ∃ s, reusedWordsLoop allowOfsDelta b (out.length - packHeaderSize) (b.bitmapPos / bitsInEword)
        (words.drop (b.bitmapPos / bitsInEword)) ⟨out, []⟩ = some s ∧
      ReusedUpto allowOfsDelta b packPos words out (words.length * bitsInEword) s := by
    rcases Nat.le_total (b.bitmapPos / bitsInEword) words.length with hle | hle
    · exact hfrom _ _ hle (hempty _ (Nat.div_mul_le_self _ _))
    · rw [List.drop_eq_nil_iff.mpr hle]
      exact ⟨_, rfl, hempty _ ((Nat.mul_le_mul_right _ hle).trans (Nat.div_mul_le_self _ _))⟩
  suffices hrun : ∃ s, writeReusedPack allowOfsDelta b words out = some s ∧
      ReusedUpto allowOfsDelta b packPos words out (words.length * bitsInEword) s by
    obtain ⟨s, hs, record, h⟩ := hrun
    exact ⟨s, record, hs, h.out_eq, h.ascending, h.emitted⟩
  rw [writeReusedPack]
  split_ifs with hallow
  · rw [writeReusedPackVerbatim]
    by_cases hpos : b.bitmapPos = 0
    · rw [if_neg (not_not.mpr hpos), if_neg (Nat.not_lt.mpr (hwords hpos))]
      dsimp only
      split_ifs with hfull
      · rw [hpos, Nat.zero_div] at hbits
        exact hbits
      · refine hfrom _ _ ?_ ⟨b.p.record, ?_⟩
        · exact ((List.takeWhile_prefix _).trans (List.take_prefix _ _)).length_le
        · have hle : ((words.take (b.bitmapNr / bitsInEword)).takeWhile (· = fullWord)).length * bitsInEword ≤
              b.p.numObjects := by
            have hlen : ((words.take (b.bitmapNr / bitsInEword)).takeWhile (· = fullWord)).length ≤
                b.bitmapNr / bitsInEword := ((List.takeWhile_prefix _).length_le).trans (List.length_take_le _ _)
            have hnr := (Nat.mul_le_mul_right bitsInEword hlen).trans (Nat.div_mul_le_self _ _)
            by_contra hgt
            have hbound := hb.bound b.p.numObjects (by omega) (by omega)
            rw [hb.direct hpos] at hbound
            exact lt_irrefl _ hbound
          rw [markedBits_verbatim hpos, List.map_congr_left fun bit _ => hb.direct hpos bit, List.map_id', hallow]
          exact reused_range hb.pack hout hle (Nat.mul_pos (Nat.pos_of_ne_zero hfull) (by decide))
    · rw [if_pos hpos]
      exact hbits
  · exact hbits

end Loops

section Sample

def sampleSource : SourcePack where
  bytes := List.replicate 12 0 ++ [49, 120, 49, 121, 97, 4, 122]
  numObjects := 3
  packPosToOffset := fun q => if q = 0 then 12 else if q = 1 then 14 else if q = 2 then 16 else 19
  packPosToId := fun q => [UInt8.ofNat q]

def sampleReuse : BitmappedPack := ⟨sampleSource, 0, 3, none⟩

lemma sampleSource_wellFormed : sampleSource.WellFormed where
  first := rfl
  mono := by decide
  last := by decide
  parse q hq := by
    have hq3 : q < 3 := hq
    interval_cases q
    · exact ⟨3, 1, [120], ⟨1, rfl, rfl⟩, fun h => absurd h (by decide)⟩
    · exact ⟨3, 1, [121], ⟨1, rfl, rfl⟩, fun h => absurd h (by decide)⟩
    · exact ⟨6, 1, [4, 122], ⟨1, rfl, rfl⟩, fun _ => ⟨4, [122], 0, by decide, by decide, rfl⟩⟩

lemma sampleReuse_placed : sampleReuse.Placed id where
  pack := sampleSource_wellFormed
  direct _ _ := rfl
  midx h := absurd rfl h
  bound bit _ h := by
    have hlt : bit < 0 + 3 := h
    exact hlt
  mono _ _ _ h _ := h

lemma sampleReuse_basesMarked : BasesMarked sampleReuse id [5] := by
  intro bit hbit size body ofs data base hrecord hread hbase heq
  have hmem : bit ∈ [0, 2] := hbit
  obtain ⟨used, hunpack, hbody⟩ := hrecord
  rw [List.mem_cons, List.mem_singleton] at hmem
  rcases hmem with rfl | rfl
  · have hblob : unpackObjectHeaderBuffer (sampleReuse.p.record (id 0)) = some (3, 1, 1) := rfl
    rw [hblob] at hunpack
    cases hunpack
  · have hdelta : unpackObjectHeaderBuffer (sampleReuse.p.record (id 2)) = some (6, 1, 1) := rfl
    rw [hdelta] at hunpack
    cases hunpack
    have hofs : readOfsDelta body = some (4, [122]) := by
      rw [← hbody]
      decide
    rw [hofs] at hread
    cases hread
    have hbase3 : base < 3 := hbase
    refine ⟨0, by decide, ?_⟩
    interval_cases base
    · rfl
    · exact absurd heq (by decide)
    · exact absurd heq (by decide)

theorem writeReusedPack_spec_sample :
    ∃ s record, writeReusedPack true sampleReuse [5] (List.replicate 12 0) = some s ∧
      s.out = List.replicate 12 0 ++ (((markedBits sampleReuse [5] 64).map id).map record).flatten := by
  obtain ⟨s, record, hs, hout, -⟩ := writeReusedPack_spec true sampleReuse_placed sampleReuse_basesMarked
    (fun _ => by decide) (show packHeaderSize ≤ (List.replicate 12 (0 : UInt8)).length by decide)
  exact ⟨s, record, hs, hout⟩

end Sample

end GitCore.Pack
