import GitCore.Ewah.Operations
import GitCore.Ewah.Readers

/-!
# Bitmaps and compressed bitmaps as sets

The operations of `ewah/bitmap.c` on two bitmaps, one of which may be compressed. A comparison that returns from its
loop at the first difference is a search for a difference.
-/

namespace GitCore.Ewah

def allocNr (x : Nat) : Nat := (x + 16) * 3 / 2

def bitmapGrow (words : List Eword) (wordAlloc : Nat) : List Eword :=
  if wordAlloc ≤ words.length then words
  else words ++ List.replicate (max wordAlloc (allocNr words.length) - words.length) 0

/-- The loop of `bitmap_or` over the words of the other bitmap. -/
def orWords : List Eword → List Eword → List Eword
  | words, [] => words
  | [], _ :: _ => []
  | word :: words, w :: other => (word ||| w) :: orWords words other

def bitmapOr (self other : Bitmap) : Bitmap := ⟨orWords (bitmapGrow self.words other.words.length) other.words⟩

def andNotWords : List Eword → List Eword → List Eword
  | word :: words, w :: other => (word &&& ~~~w) :: andNotWords words other
  | words, _ => words

def bitmapAndNot (self other : Bitmap) : Bitmap := ⟨andNotWords self.words other.words⟩

/-- The loop of `bitmap_or_ewah`: the words that are handed out and those that are left of the bitmap; nothing if a
word is written behind the last one. -/
def orEwahWords : List Eword → List Eword → Option (List Eword)
  | [], words => some words
  | _ :: _, [] => none
  | w :: other, word :: words => (orEwahWords other words).map ((word ||| w) :: ·)

def bitmapOrEwah (self : Bitmap) (other : EwahBitmap) : Option Bitmap :=
  let otherFinal := other.bitSize / bitsInEword + 1
  (orEwahWords (ewahWords other) (self.words ++ List.replicate (otherFinal - self.words.length) 0)).map Bitmap.mk

def toEwahLoop : List Eword → EwahBitmap → Nat → Eword → EwahBitmap
  | [], ewah, _, lastWord => (ewahAdd ewah lastWord).1
  | word :: words, ewah, runningEmptyWords, lastWord =>
    if word = 0 then toEwahLoop words ewah (runningEmptyWords + 1) lastWord
    else
      let ewah := if lastWord ≠ 0 then (ewahAdd ewah lastWord).1 else ewah
      let ewah := if runningEmptyWords > 0 then (ewahAddEmptyWords ewah false runningEmptyWords).1 else ewah
      toEwahLoop words ewah 0 word

def bitmapToEwah (bitmap : Bitmap) : EwahBitmap := toEwahLoop bitmap.words ewahNew 0 0

def bitmapEquals (self other : Bitmap) : Nat :=
  let (small, big) := if self.words.length < other.words.length then (self, other) else (other, self)
  if (List.range small.words.length).any fun i => small.words.getD i 0 ≠ big.words.getD i 0 then 0
  else if (big.words.drop small.words.length).any (· ≠ 0) then 0
  else 1

/-- The loop of `bitmap_equals_ewah` over the words that are handed out, with the words left of the bitmap. -/
def equalsEwahLoop : List Eword → List Eword → Nat
  | [], words => if words.any (· ≠ 0) then 0 else 1
  | w :: other, [] => if w ≠ 0 then 0 else equalsEwahLoop other []
  | w :: other, word :: words => if w ≠ word then 0 else equalsEwahLoop other words

def bitmapEqualsEwah (self : Bitmap) (other : EwahBitmap) : Nat := equalsEwahLoop (ewahWords other) self.words

def bitmapIsSubset (self other : Bitmap) : Nat :=
  let commonSize := if self.words.length < other.words.length then self.words.length else other.words.length
  if ¬ self.words.length < other.words.length ∧ (self.words.drop commonSize).any (· ≠ 0) then 1
  else if (List.range commonSize).any fun i => self.words.getD i 0 &&& ~~~other.words.getD i 0 ≠ 0 then 1
  else 0

/-- The loops of `ewah_bitmap_is_subset` over the words that are handed out and those of the bitmap. -/
def ewahSubsetLoop : List Eword → List Eword → Nat
  | self, [] => if self.any (· ≠ 0) then 0 else 1
  | [], _ :: _ => 1
  | word :: self, w :: other => if word &&& ~~~w ≠ 0 then 0 else ewahSubsetLoop self other

def ewahBitmapIsSubset (self : EwahBitmap) (other : Bitmap) : Nat := ewahSubsetLoop (ewahWords self) other.words

def Bitmap.bits (self : Bitmap) : Set Nat := {p | bitmapGet self p = true}

def EwahBitmap.bits (self : EwahBitmap) : Set Nat := {p | p ∈ ewahEachBit self}

def bitIn (words : List Eword) (p : Nat) : Bool := (words.getD (p / bitsInEword) 0).getLsbD (p % bitsInEword)

variable {self other : Bitmap} {ewah : EwahBitmap} {n p : Nat} {a b words : List Eword}

lemma getLsbD_zero (c : Nat) : (0 : Eword).getLsbD c = false := BitVec.getLsbD_zero

lemma mem_bits : p ∈ self.bits ↔ bitIn self.words p = true := by
  have hc : p % bitsInEword < bitsInEword := Nat.mod_lt _ (by decide)
  change bitmapGet self p = true ↔ _
  rw [bitmapGet, Bool.and_eq_true, decide_eq_true_iff, decide_eq_true_iff, bit_ne_zero hc, bitIn]
  refine ⟨fun h => h.2, fun h => ⟨?_, h⟩⟩
  by_contra hge
  rw [List.getD_eq_default _ _ (Nat.not_lt.mp hge)] at h
  exact Bool.false_ne_true ((getLsbD_zero _).symm.trans h)

lemma mem_ewah_bits (h : Encodes ewah n words) : p ∈ ewah.bits ↔ bitIn words p = true := by
  change p ∈ ewahEachBit ewah ↔ _
  rw [ewahEachBit_eq h, ← bitmapGet_iff ⟨words⟩]
  exact mem_bits

lemma forall_bitIn {P : Bool → Bool → Prop} (hfalse : P false false) :
    (∀ p, P (bitIn a p) (bitIn b p)) ↔ ∀ k c, P ((a.getD k 0).getLsbD c) ((b.getD k 0).getLsbD c) := by
  refine ⟨fun h k c => ?_, fun h p => h _ _⟩
  by_cases hc : c < bitsInEword
  · have hp := h (k * bitsInEword + c)
    rw [bitIn, bitIn, Nat.mul_comm, Nat.mul_add_div (by decide), Nat.div_eq_of_lt hc, Nat.add_zero, Nat.mul_add_mod,
      Nat.mod_eq_of_lt hc] at hp
    exact hp
  · have hoff : ∀ w : Eword, w.getLsbD c = false := fun w => Bool.eq_false_iff.mpr fun h => hc (lt_of_getLsbD h)
    rw [hoff, hoff]
    exact hfalse

lemma bitIn_eq_iff : (∀ p, bitIn a p = bitIn b p) ↔ ∀ k, a.getD k 0 = b.getD k 0 := by
  rw [forall_bitIn (P := fun x y => x = y) rfl]
  exact forall_congr' fun k => ⟨fun h => BitVec.eq_of_getLsbD_eq fun i _ => h i, fun h c => by rw [h]⟩

lemma bitIn_subset_iff : (∀ p, bitIn a p = true → bitIn b p = true) ↔ ∀ k, a.getD k 0 &&& ~~~b.getD k 0 = 0 := by
  rw [forall_bitIn (P := fun x y => x = true → y = true) id]
  refine forall_congr' fun k => ⟨fun h => ?_, fun h c hc => ?_⟩
  · refine BitVec.eq_of_getLsbD_eq fun i hi => ?_
    rw [BitVec.getLsbD_and, BitVec.getLsbD_not, getLsbD_zero]
    cases ha : (a.getD k 0).getLsbD i with
    | false => rfl
    | true => rw [h i ha, Bool.not_true, Bool.and_false, Bool.and_false]
  · have hbit := congrArg (fun w => BitVec.getLsbD w c) h
    simp only [BitVec.getLsbD_and, BitVec.getLsbD_not, hc, getLsbD_zero, Bool.true_and] at hbit
    by_contra hb
    rw [Bool.not_eq_true] at hb
    rw [hb, Bool.not_false, Bool.and_true, decide_eq_false_iff_not] at hbit
    exact hbit (lt_of_getLsbD hc)

lemma getD_append_zeros (words : List Eword) (n k : Nat) : (words ++ List.replicate n 0).getD k 0 = words.getD k 0 := by
  by_cases hk : k < words.length
  · rw [List.getD_append _ _ _ _ hk]
  · rw [List.getD_append_right _ _ _ _ (Nat.not_lt.mp hk), List.getD_eq_default words _ (Nat.not_lt.mp hk)]
    by_cases hn : k - words.length < n
    · rw [List.getD_replicate _ hn]
    · exact List.getD_eq_default _ _ (by rwa [List.length_replicate, ← Nat.not_lt])

lemma bitIn_append_zeros (words : List Eword) (n p : Nat) : bitIn (words ++ List.replicate n 0) p = bitIn words p := by
  rw [bitIn, bitIn, getD_append_zeros]

lemma orWords_getD (hlen : b.length ≤ a.length) (k : Nat) : (orWords a b).getD k 0 = a.getD k 0 ||| b.getD k 0 := by
  induction b generalizing a k with
  | nil =>
    rw [orWords, List.getD_nil]
    exact (BitVec.or_zero).symm
  | cons w b ih =>
    cases a with
    | nil => exact absurd hlen (Nat.not_succ_le_zero _)
    | cons word a =>
      rw [orWords]
      cases k with
      | zero => rfl
      | succ k => exact ih (Nat.le_of_succ_le_succ hlen) k

lemma andNotWords_getD (a b : List Eword) (k : Nat) : (andNotWords a b).getD k 0 = a.getD k 0 &&& ~~~b.getD k 0 := by
  induction a generalizing b k with
  | nil =>
    rw [andNotWords]
    · exact (BitVec.zero_and).symm
    · intro word words w other h
      cases h
  | cons word a ih =>
    cases b with
    | nil =>
      rw [andNotWords, List.getD_nil]
      · have hones : ~~~(0 : Eword) = BitVec.allOnes 64 := by decide
        rw [hones, BitVec.and_allOnes]
      · intro word words w other _ h
        cases h
    | cons w b =>
      rw [andNotWords]
      cases k with
      | zero => rfl
      | succ k => exact ih b k

lemma length_bitmapGrow (words : List Eword) (wordAlloc : Nat) : wordAlloc ≤ (bitmapGrow words wordAlloc).length := by
  rw [bitmapGrow]
  split_ifs with hle
  · exact hle
  · rw [List.length_append, List.length_replicate]
    omega

lemma bitIn_bitmapGrow (words : List Eword) (wordAlloc p : Nat) :
    bitIn (bitmapGrow words wordAlloc) p = bitIn words p := by
  rw [bitmapGrow]
  split_ifs
  · rfl
  · exact bitIn_append_zeros _ _ _

lemma orEwahWords_eq (hlen : b.length ≤ a.length) : orEwahWords b a = some (orWords a b) := by
  induction b generalizing a with
  | nil => rw [orEwahWords, orWords]
  | cons w b ih =>
    cases a with
    | nil => exact absurd hlen (Nat.not_succ_le_zero _)
    | cons word a =>
      rw [orEwahWords, ih (Nat.le_of_succ_le_succ hlen)]
      rfl

lemma addPending_stores {done : List Eword} (hstores : Stores ewah n done) (lastWord : Eword) :
    ∃ m, Stores (if lastWord ≠ 0 then (ewahAdd ewah lastWord).1 else ewah) m
      (done ++ if lastWord = 0 then [] else [lastWord]) := by
  by_cases hzero : lastWord = 0
  · rw [if_neg (not_not.mpr hzero), if_pos hzero, List.append_nil]
    exact ⟨n, hstores⟩
  · rw [if_pos hzero, if_neg hzero]
    exact ⟨_, ewahAdd_stores hstores lastWord⟩

lemma addRunning_stores {done : List Eword} (hstores : Stores ewah n done) (running : Nat) :
    ∃ m, Stores (if running > 0 then (ewahAddEmptyWords ewah false running).1 else ewah) m
      (done ++ List.replicate running 0) := by
  by_cases hpos : running > 0
  · rw [if_pos hpos]
    exact ⟨_, ewahAddEmptyWords_stores hstores false running⟩
  · rw [if_neg hpos, Nat.eq_zero_of_not_pos hpos, List.replicate_zero, List.append_nil]
    exact ⟨n, hstores⟩

lemma toEwahLoop_stores {done : List Eword} (hstores : Stores ewah n done) (running : Nat) (lastWord : Eword) :
    ∃ m stored, Stores (toEwahLoop words ewah running lastWord) m stored ∧ ∀ k, stored.getD k 0 =
      (done ++ (if lastWord = 0 then [] else [lastWord]) ++ List.replicate running 0 ++ words).getD k 0 := by
  induction words generalizing ewah n done running lastWord with
  | nil =>
    refine ⟨_, _, ewahAdd_stores hstores lastWord, fun k => ?_⟩
    rw [List.append_nil, getD_append_zeros]
    split_ifs with hzero
    · rw [hzero, List.append_nil]
      exact getD_append_zeros done 1 k
    · rfl
  | cons word words ih =>
    rw [toEwahLoop]
    by_cases hzero : word = 0
    · obtain ⟨m, stored, hstored, hwords⟩ := ih hstores (running + 1) lastWord
      rw [if_pos hzero]
      refine ⟨m, stored, hstored, fun k => ?_⟩
      rw [hwords, hzero, List.replicate_succ', ← List.append_assoc, List.append_assoc _ [0]]
      rfl
    · obtain ⟨l, hpending⟩ := addPending_stores hstores lastWord
      obtain ⟨m, hrunning⟩ := addRunning_stores hpending running
      obtain ⟨m', stored, hstored, hwords⟩ := ih hrunning 0 word
      rw [if_neg hzero]
      refine ⟨m', stored, hstored, fun k => ?_⟩
      rw [hwords, if_neg hzero, List.replicate_zero, List.append_nil, List.append_assoc _ [word]]
      rfl

lemma bits_bitmapOr (self other : Bitmap) : (bitmapOr self other).bits = self.bits ∪ other.bits := by
  ext p
  rw [Set.mem_union, mem_bits, mem_bits, mem_bits, bitmapOr, bitIn, orWords_getD (length_bitmapGrow _ _),
    BitVec.getLsbD_or, Bool.or_eq_true, ← bitIn, ← bitIn, bitIn_bitmapGrow]

lemma bits_bitmapAndNot (self other : Bitmap) : (bitmapAndNot self other).bits = self.bits \ other.bits := by
  ext p
  have hc : p % bitsInEword < 64 := Nat.mod_lt _ (by decide)
  have hnot : (~~~other.words.getD (p / bitsInEword) 0).getLsbD (p % bitsInEword) = !bitIn other.words p := by
    rw [BitVec.getLsbD_not, decide_eq_true hc, Bool.true_and, bitIn]
  rw [Set.mem_sdiff, mem_bits, mem_bits, mem_bits, bitmapAndNot, bitIn, andNotWords_getD, BitVec.getLsbD_and, hnot,
    ← bitIn, Bool.and_eq_true, Bool.not_eq_true', Bool.not_eq_true]

lemma length_le_otherFinal (hcount : divRoundUp n bitsInEword = words.length) : words.length ≤ n / bitsInEword + 1 := by
  rw [← hcount, divRoundUp, bitsInEword]
  omega

lemma bits_bitmapOrEwah (self : Bitmap) (hwell : WellFormed ewah) :
    ∃ result, bitmapOrEwah self ewah = some result ∧ result.bits = self.bits ∪ ewah.bits := by
  obtain ⟨words, hencodes, hcount⟩ := hwell
  have hroom : words.length ≤
      (self.words ++ List.replicate (ewah.bitSize / bitsInEword + 1 - self.words.length) 0).length := by
    have hle := length_le_otherFinal hcount
    rw [List.length_append, List.length_replicate]
    omega
  refine ⟨⟨orWords (self.words ++ List.replicate (ewah.bitSize / bitsInEword + 1 - self.words.length) 0) words⟩, ?_, ?_⟩
  · rw [bitmapOrEwah, ewahWords_eq hencodes, orEwahWords_eq hroom]
    rfl
  · ext p
    rw [Set.mem_union, mem_bits, mem_bits, mem_ewah_bits hencodes, bitIn, orWords_getD hroom, BitVec.getLsbD_or,
      Bool.or_eq_true, ← bitIn, ← bitIn, bitIn_append_zeros]

lemma bits_ewahToBitmap_bitmapToEwah (self : Bitmap) : (ewahToBitmap (bitmapToEwah self)).bits = self.bits := by
  obtain ⟨m, stored, hstored, hwords⟩ := @toEwahLoop_stores _ _ self.words _ stores_ewahNew 0 0
  ext p
  rw [mem_bits, mem_bits, bitmapToEwah, ewahToBitmap_words hstored.encodes, bitIn, hwords]
  rfl

lemma bits_eq_iff (ha : ∀ p, p ∈ self.bits ↔ bitIn a p = true) {other : Set Nat} (hb : ∀ p, p ∈ other ↔ bitIn b p = true) :
    self.bits = other ↔ ∀ k, a.getD k 0 = b.getD k 0 := by
  rw [← bitIn_eq_iff, Set.ext_iff]
  refine forall_congr' fun p => ?_
  rw [ha, hb]
  exact Bool.eq_iff_iff.symm

lemma any_drop_iff (words : List Eword) (n : Nat) :
    (words.drop n).any (· ≠ 0) = true ↔ ∃ k, n ≤ k ∧ words.getD k 0 ≠ 0 := by
  rw [List.any_eq_true]
  constructor
  · rintro ⟨w, hw, hne⟩
    obtain ⟨i, hi, rfl⟩ := List.getElem_of_mem hw
    rw [List.getElem_drop] at hne
    rw [List.length_drop] at hi
    refine ⟨n + i, Nat.le_add_right n i, ?_⟩
    rw [List.getD_eq_getElem _ _ (by omega)]
    exact of_decide_eq_true hne
  · rintro ⟨k, hk, hne⟩
    have hlt : k < words.length := by
      by_contra hge
      exact hne (List.getD_eq_default _ _ (Nat.not_lt.mp hge))
    rw [List.getD_eq_getElem _ _ hlt] at hne
    refine ⟨words[k], ?_, decide_eq_true hne⟩
    rw [List.mem_iff_getElem]
    refine ⟨k - n, by rw [List.length_drop]; omega, ?_⟩
    rw [List.getElem_drop]
    congr 1
    omega

lemma equals_iff (a b : List Eword) :
    (if (List.range a.length).any (fun i => a.getD i 0 ≠ b.getD i 0) = true then 0
      else if (b.drop a.length).any (· ≠ 0) = true then 0 else 1) = 1 ↔ ∀ k, a.getD k 0 = b.getD k 0 := by
  split_ifs with hdiff htail
  · obtain ⟨k, -, hne⟩ := List.any_eq_true.mp hdiff
    exact iff_of_false (by decide) fun hall => of_decide_eq_true hne (hall k)
  · obtain ⟨k, hk, hne⟩ := (any_drop_iff b a.length).mp htail
    refine iff_of_false (by decide) fun hall => hne ?_
    rw [← hall k, List.getD_eq_default _ _ hk]
  · refine iff_of_true rfl fun k => ?_
    by_contra hne
    by_cases hk : k < a.length
    · exact hdiff (List.any_eq_true.mpr ⟨k, List.mem_range.mpr hk, decide_eq_true hne⟩)
    · rw [List.getD_eq_default a _ (Nat.not_lt.mp hk)] at hne
      exact htail ((any_drop_iff b a.length).mpr ⟨k, Nat.not_lt.mp hk, Ne.symm hne⟩)

lemma bitmapEquals_iff (self other : Bitmap) : bitmapEquals self other = 1 ↔ self.bits = other.bits := by
  rw [bits_eq_iff (fun p => mem_bits) fun p => mem_bits, bitmapEquals]
  split_ifs
  · exact equals_iff self.words other.words
  · exact (equals_iff other.words self.words).trans (forall_congr' fun k => eq_comm)

lemma equalsEwahLoop_iff (a b : List Eword) : equalsEwahLoop a b = 1 ↔ ∀ k, b.getD k 0 = a.getD k 0 := by
  induction a generalizing b with
  | nil =>
    rw [equalsEwahLoop]
    have hany := any_drop_iff b 0
    rw [List.drop_zero] at hany
    split_ifs with h
    · obtain ⟨k, -, hne⟩ := hany.mp h
      exact iff_of_false (by decide) fun hall => hne (hall k)
    · refine iff_of_true rfl fun k => ?_
      by_contra hne
      exact h (hany.mpr ⟨k, Nat.zero_le k, hne⟩)
  | cons w a ih =>
    cases b with
    | nil =>
      rw [equalsEwahLoop]
      split_ifs with h
      · exact iff_of_false (by decide) fun hall => h (hall 0).symm
      · rw [ih]
        refine ⟨fun hall k => ?_, fun hall k => hall (k + 1)⟩
        cases k with
        | zero => exact (not_not.mp h).symm
        | succ k => exact hall k
    | cons word b =>
      rw [equalsEwahLoop]
      split_ifs with h
      · exact iff_of_false (by decide) fun hall => h (hall 0).symm
      · rw [ih]
        refine ⟨fun hall k => ?_, fun hall k => hall (k + 1)⟩
        cases k with
        | zero => exact (not_not.mp h).symm
        | succ k => exact hall k

lemma ewahSubsetLoop_iff (a b : List Eword) : ewahSubsetLoop a b = 1 ↔ ∀ k, a.getD k 0 &&& ~~~b.getD k 0 = 0 := by
  have hones : ~~~(0 : Eword) = BitVec.allOnes 64 := by decide
  induction b generalizing a with
  | nil =>
    rw [ewahSubsetLoop]
    have hany := any_drop_iff a 0
    rw [List.drop_zero] at hany
    have hall : (∀ k, a.getD k 0 &&& ~~~([] : List Eword).getD k 0 = 0) ↔ ∀ k, a.getD k 0 = 0 := by
      refine forall_congr' fun k => ?_
      rw [List.getD_nil, hones, BitVec.and_allOnes]
    rw [hall]
    split_ifs with h
    · obtain ⟨k, -, hne⟩ := hany.mp h
      exact iff_of_false (by decide) fun hzero => hne (hzero k)
    · refine iff_of_true rfl fun k => ?_
      by_contra hne
      exact h (hany.mpr ⟨k, Nat.zero_le k, hne⟩)
  | cons w b ih =>
    cases a with
    | nil =>
      rw [ewahSubsetLoop]
      refine iff_of_true rfl fun k => ?_
      rw [List.getD_nil]
      exact BitVec.zero_and
    | cons word a =>
      rw [ewahSubsetLoop]
      split_ifs with h
      · exact iff_of_false (by decide) fun hall => h (hall 0)
      · refine (ih a).trans ⟨fun hall k => ?_, fun hall k => hall (k + 1)⟩
        cases k with
        | zero => exact not_not.mp h
        | succ k => exact hall k

lemma bitmapIsSubset_iff (self other : Bitmap) : bitmapIsSubset self other = 1 ↔ ¬ self.bits ⊆ other.bits := by
  have hsubset : self.bits ⊆ other.bits ↔ ∀ k, self.words.getD k 0 &&& ~~~other.words.getD k 0 = 0 := by
    rw [← bitIn_subset_iff, Set.subset_def]
    exact forall_congr' fun p => by rw [mem_bits, mem_bits]
  have hones : ~~~(0 : Eword) = BitVec.allOnes 64 := by decide
  have hwords : ∀ n, (List.range n).any (fun i => self.words.getD i 0 &&& ~~~other.words.getD i 0 ≠ 0) = true ↔
      ∃ k, k < n ∧ self.words.getD k 0 &&& ~~~other.words.getD k 0 ≠ 0 := by
    intro n
    rw [List.any_eq_true]
    exact exists_congr fun k => and_congr List.mem_range decide_eq_true_iff
  rw [hsubset, not_forall, bitmapIsSubset]
  by_cases hlt : self.words.length < other.words.length
  · simp only [hlt, not_true_eq_false, false_and, if_false, if_true]
    split_ifs with hword
    · obtain ⟨k, -, hne⟩ := (hwords _).mp hword
      exact iff_of_true rfl ⟨k, hne⟩
    · refine iff_of_false (by decide) ?_
      rintro ⟨k, hne⟩
      refine hword ((hwords _).mpr ⟨k, ?_, hne⟩)
      by_contra hge
      rw [List.getD_eq_default _ _ (Nat.not_lt.mp hge)] at hne
      exact hne BitVec.zero_and
  · simp only [hlt, not_false_eq_true, true_and, if_false]
    split_ifs with htail hword
    · obtain ⟨k, hk, hne⟩ := (any_drop_iff _ _).mp htail
      refine iff_of_true rfl ⟨k, ?_⟩
      rw [List.getD_eq_default other.words _ hk, hones, BitVec.and_allOnes]
      exact hne
    · obtain ⟨k, -, hne⟩ := (hwords _).mp hword
      exact iff_of_true rfl ⟨k, hne⟩
    · refine iff_of_false (by decide) ?_
      rintro ⟨k, hne⟩
      by_cases hk : k < other.words.length
      · exact hword ((hwords _).mpr ⟨k, hk, hne⟩)
      · rw [List.getD_eq_default other.words _ (Nat.not_lt.mp hk), hones, BitVec.and_allOnes] at hne
        exact htail ((any_drop_iff _ _).mpr ⟨k, Nat.not_lt.mp hk, hne⟩)

end GitCore.Ewah
