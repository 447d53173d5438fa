import GitCore.Ewah.Plain
import GitCore.Lib.Bytes

/-!
# Compressed bitmaps in files

`ewah/ewah_io.c`, and the words that the consumers of a bitmap read and write. Nothing that is read from a file is
compared with anything else that is read.
-/

namespace GitCore.Ewah

def ewahSerializeTo (self : EwahBitmap) : List UInt8 :=
  beBytes 4 (self.bitSize % 2 ^ 32) ++ beBytes 4 (self.buffer.length % 2 ^ 32) ++
    self.buffer.flatMap (fun word => beBytes 8 word.toNat) ++ beBytes 4 (self.rlw * 8 % 2 ^ 32 / 8)

inductive CorruptEwah where
  | eofBeforeBitSize
  | eofBeforeLength
  | eofInData (short : Nat)
  | eofBeforeRlw

def readWords : Nat → List UInt8 → List Eword
  | 0, _ => []
  | n + 1, ptr => BitVec.ofNat 64 (beValue (ptr.take 8)) :: readWords n (ptr.drop 8)

def ewahReadMmap (map : List UInt8) : Except CorruptEwah (EwahBitmap × Nat) :=
  if map.length < 4 then .error .eofBeforeBitSize
  else
    let bitSize := beValue (map.take 4)
    let ptr := map.drop 4
    if ptr.length < 4 then .error .eofBeforeLength
    else
      let bufferSize := beValue (ptr.take 4)
      let ptr := ptr.drop 4
      let dataLen := bufferSize * 8
      if ptr.length < dataLen then .error (.eofInData (dataLen - ptr.length))
      else
        let buffer := readWords bufferSize ptr
        let ptr := ptr.drop dataLen
        if ptr.length < 4 then .error .eofBeforeRlw
        else .ok (⟨buffer, bitSize, beValue (ptr.take 4)⟩, map.length - (ptr.drop 4).length)

def eachBitReads (buffer : List Eword) (pointer : Nat) : List Nat :=
  if _h : pointer < buffer.length then
    let nr := (rlwGetLiteralWords buffer[pointer]).toNat
    pointer :: ((List.range nr).map (pointer + 1 + ·) ++ eachBitReads buffer (pointer + 1 + nr))
  else []
termination_by buffer.length - pointer

def readRlwReads (it : EwahIterator) : List Nat :=
  let it' := it.load it.pointer
  it.pointer :: if it'.rl ≠ 0 ∨ it'.lw ≠ 0 then []
    else if _h : it.pointer < it.buffer.length - 1 then readRlwReads { it' with pointer := it.pointer + 1 } else []
termination_by it.buffer.length - it.pointer
decreasing_by
  simp only [EwahIterator.load]
  omega

def nextReads (it : EwahIterator) : List Nat :=
  if it.pointer ≥ it.buffer.length then []
  else
    let it' := (takeWord it).2
    (if it.compressed < it.rl then [] else [it.pointer + 1]) ++
      if it'.compressed = it'.rl ∧ it'.literals = it'.lw ∧ it'.pointer + 1 < it'.buffer.length then
        readRlwReads { it' with pointer := it'.pointer + 1, literals := 0, compressed := 0 }
      else []

/-- The indices that are read in `while (ewah_iterator_next(&word, &it))`. -/
def iteratorReads (it : EwahIterator) : List Nat :=
  nextReads it ++
    match _h : ewahIteratorNext it with
    | none => []
    | some (_, it') => iteratorReads it'
termination_by (it.buffer.length - it.pointer, it.rl.toNat - it.compressed.toNat)
decreasing_by exact ewahIteratorNext_lt _h

def ewahIteratorReads (parent : EwahBitmap) : List Nat :=
  (if 0 < parent.buffer.length then readRlwReads ⟨parent.buffer, 0, 0, 0, 0, 0, false⟩ else []) ++
    iteratorReads (ewahIteratorInit parent)

/-- All that is read is in the buffer, and all that is written in the destination. -/
structure StaysInside (ewah : EwahBitmap) (dest : Bitmap) : Prop where
  eachBit : ∀ p ∈ eachBitReads ewah.buffer 0, p < ewah.buffer.length
  iterator : ∀ p ∈ ewahIteratorReads ewah, p < ewah.buffer.length
  orEwah : bitmapOrEwah dest ewah ≠ none

/-- From one run-length word to the next; if that ends at the end of the buffer, the number of words they stand for. -/
def followMarkers (buffer : List Eword) (pointer : Nat) : Option Nat :=
  if _h : pointer < buffer.length then
    let nr := (rlwGetLiteralWords buffer[pointer]).toNat
    (followMarkers buffer (pointer + 1 + nr)).map ((rlwGetRunningLen buffer[pointer]).toNat + nr + ·)
  else if pointer = buffer.length then some 0
  else none
termination_by buffer.length - pointer

variable {self : EwahBitmap} {dest : Bitmap} {buffer : List Eword} {pointer : Nat}

lemma eachBitReads_inside (hpointer : pointer ≤ buffer.length) :
    (∀ p ∈ eachBitReads buffer pointer, p < buffer.length) ↔ followMarkers buffer pointer ≠ none := by
  induction hsize : buffer.length - pointer using Nat.strong_induction_on generalizing pointer with
  | _ size ih =>
    rw [eachBitReads, followMarkers]
    by_cases hlt : pointer < buffer.length
    · simp only [dif_pos hlt]
      set nr := (rlwGetLiteralWords buffer[pointer]).toNat with hnr
      rw [List.forall_mem_cons, List.forall_mem_append, and_iff_right hlt, Ne, Option.map_eq_none_iff]
      by_cases hroom : pointer + 1 + nr ≤ buffer.length
      · rw [ih (buffer.length - (pointer + 1 + nr)) (by omega) hroom rfl]
        refine and_iff_right fun p hp => ?_
        obtain ⟨k, hk, rfl⟩ := List.mem_map.mp hp
        have := List.mem_range.mp hk
        omega
      · have hbehind : followMarkers buffer (pointer + 1 + nr) = none := by
          rw [followMarkers, dif_neg (by omega), if_neg (by omega)]
        refine iff_of_false (fun hall => ?_) fun hne => hne hbehind
        have hlast := hall.1 (pointer + 1 + (nr - 1)) (List.mem_map.mpr ⟨nr - 1, List.mem_range.mpr (by omega), rfl⟩)
        omega
    · rw [dif_neg hlt, dif_neg hlt, if_pos (by omega)]
      exact iff_of_true (fun p hp => absurd hp List.not_mem_nil) fun h => by cases h

lemma followMarkers_eq_some {n : Nat} (h : followMarkers buffer pointer = some n) :
    ∃ runs, buffer.drop pointer = encode runs ∧ (decode runs).length = n := by
  induction hsize : buffer.length - pointer using Nat.strong_induction_on generalizing pointer n with
  | _ size ih =>
    rw [followMarkers] at h
    by_cases hlt : pointer < buffer.length
    · simp only [dif_pos hlt] at h
      obtain ⟨m, hm, rfl⟩ := Option.map_eq_some_iff.mp h
      obtain ⟨runs, hruns, hcount⟩ := ih _ (by omega) hm rfl
      obtain ⟨nr, hnr⟩ : ∃ nr, (rlwGetLiteralWords buffer[pointer]).toNat = nr := ⟨_, rfl⟩
      rw [hnr] at hm hruns ⊢
      have hroom : pointer + 1 + nr ≤ buffer.length := by
        by_contra hover
        rw [followMarkers, dif_neg (by omega), if_neg (by omega)] at hm
        cases hm
      have hcounted : ((buffer.drop (pointer + 1)).take nr).length = (rlwGetLiteralWords buffer[pointer]).toNat := by
        rw [List.length_take, List.length_drop]
        omega
      have hsplit : (buffer.drop (pointer + 1)).take nr ++ buffer.drop (pointer + 1 + nr) = buffer.drop (pointer + 1) := by
        have hdrop : buffer.drop (pointer + 1 + nr) = (buffer.drop (pointer + 1)).drop nr := List.drop_drop.symm
        rw [hdrop, List.take_append_drop]
      refine ⟨⟨buffer[pointer], _, hcounted⟩ :: runs, ?_, ?_⟩
      · rw [encode_cons, ← hruns, List.drop_eq_getElem_cons hlt]
        exact congrArg _ hsplit.symm
      · simp only [decode_cons, List.length_append, length_words, hcount, hnr]
    · rw [dif_neg hlt] at h
      split_ifs at h with hend
      cases h
      exact ⟨[], by rw [hend, List.drop_length]; rfl, rfl⟩

lemma readRlwReads_inside (it : EwahIterator) (h : it.pointer < it.buffer.length) :
    ∀ p ∈ readRlwReads it, p < it.buffer.length := by
  induction hsize : it.buffer.length - it.pointer generalizing it with
  | zero => omega
  | succ size ih =>
    rw [readRlwReads]
    refine List.forall_mem_cons.mpr ⟨h, ?_⟩
    split_ifs with hwords hmore
    · exact fun p hp => absurd hp List.not_mem_nil
    · refine ih { it.load it.pointer with pointer := it.pointer + 1 } ?_ ?_
      · change it.pointer + 1 < it.buffer.length
        omega
      · change it.buffer.length - (it.pointer + 1) = size
        omega
    · exact fun p hp => absurd hp List.not_mem_nil

lemma buffer_takeWord (it : EwahIterator) : (takeWord it).2.buffer = it.buffer := by
  rw [takeWord]
  split <;> rfl

lemma buffer_ewahIteratorNext {it it' : EwahIterator} {word : Eword} (h : ewahIteratorNext it = some (word, it')) :
    it'.buffer = it.buffer := by
  rw [ewahIteratorNext] at h
  split_ifs at h with hend
  dsimp only at h
  split at h
  · obtain ⟨-, rfl⟩ := Prod.mk.inj (Option.some.inj h)
    split
    · exact (buffer_readRlw _).trans (buffer_takeWord it)
    · exact buffer_takeWord it
  · obtain ⟨-, rfl⟩ := Prod.mk.inj (Option.some.inj h)
    exact buffer_takeWord it

lemma nextReads_inside {it : EwahIterator} {rest : List Eword} (h : Stands it rest) :
    ∀ p ∈ nextReads it, p < it.buffer.length := by
  rw [nextReads]
  by_cases hend : it.pointer ≥ it.buffer.length
  · rw [if_pos hend]
    exact fun p hp => absurd hp List.not_mem_nil
  · rw [if_neg hend]
    obtain ⟨hbehind, -⟩ | ⟨before, r, after, hwithin, hunread, -⟩ := h
    · exact absurd hbehind hend
    · refine List.forall_mem_append.mpr ⟨?_, ?_⟩
      · by_cases hrun : it.compressed < it.rl
        · rw [if_pos hrun]
          exact fun p hp => absurd hp List.not_mem_nil
        · have hdrop : r.literals.drop it.literals.toNat ≠ [] := by
            have hzero : it.rl.toNat - it.compressed.toNat = 0 := Nat.sub_eq_zero_of_le (BitVec.not_lt.mp hrun)
            rw [unread, hzero, List.replicate_zero, List.nil_append] at hunread
            exact hunread
          have hlt : it.literals.toNat < r.literals.length := by
            by_contra hge
            exact hdrop (List.drop_eq_nil_of_le (Nat.not_lt.mp hge))
          rw [if_neg hrun]
          intro p hp
          rw [List.mem_singleton.mp hp, hwithin.pointer, hwithin.buffer, encode_cons, List.length_append, List.length_cons,
            List.length_append]
          omega
      · split
        · rename_i hdone
          rw [← buffer_takeWord it]
          exact readRlwReads_inside _ hdone.2.2
        · exact fun p hp => absurd hp List.not_mem_nil

lemma iteratorReads_inside {it : EwahIterator} {rest : List Eword} (h : Stands it rest) :
    ∀ p ∈ iteratorReads it, p < it.buffer.length := by
  induction rest generalizing it with
  | nil =>
    rw [iteratorReads]
    refine List.forall_mem_append.mpr ⟨nextReads_inside h, ?_⟩
    rcases ewahIteratorNext_stands h with ⟨hnone, -⟩ | ⟨word, it', rest', -, hcons, -⟩
    · split
      · exact fun p hp => absurd hp List.not_mem_nil
      · rename_i hsome
        rw [hnone] at hsome
        cases hsome
    · cases hcons
  | cons word rest ih =>
    rw [iteratorReads]
    refine List.forall_mem_append.mpr ⟨nextReads_inside h, ?_⟩
    rcases ewahIteratorNext_stands h with ⟨-, hnil⟩ | ⟨word', it', rest', hnext, hcons, hstands⟩
    · cases hnil
    · obtain ⟨-, rfl⟩ := List.cons.inj hcons
      split
      · exact fun p hp => absurd hp List.not_mem_nil
      · rename_i hsome
        rw [hnext] at hsome
        obtain ⟨-, rfl⟩ := Prod.mk.inj (Option.some.inj hsome)
        rw [← buffer_ewahIteratorNext hnext]
        exact ih hstands

lemma ewahIteratorInit_stands {runs : List Run} (hbuffer : self.buffer = encode runs) :
    Stands (ewahIteratorInit self) (decode runs) := by
  rw [ewahIteratorInit]
  dsimp only
  cases runs with
  | nil =>
    have hempty : self.buffer = [] := hbuffer
    rw [if_neg (by rw [hempty]; decide)]
    exact .inl ⟨by rw [hempty]; exact Nat.zero_le _, rfl⟩
  | cons r runs =>
    have hpos : 0 < self.buffer.length := by
      rw [hbuffer, encode_cons, List.length_cons]
      exact Nat.succ_pos _
    rw [if_pos hpos]
    exact @readRlw_stands _ [] _ hbuffer rfl (List.cons_ne_nil r runs) rfl rfl

lemma buffer_ewahIteratorInit (self : EwahBitmap) : (ewahIteratorInit self).buffer = self.buffer := by
  rw [ewahIteratorInit]
  dsimp only
  split
  · exact buffer_readRlw _
  · rfl

lemma orEwahWords_eq_none {a b : List Eword} (hlen : a.length < b.length) : orEwahWords b a = none := by
  induction b generalizing a with
  | nil => exact absurd hlen (Nat.not_lt_zero _)
  | cons w b ih =>
    cases a with
    | nil => rw [orEwahWords]
    | cons word a => rw [orEwahWords, ih (Nat.lt_of_succ_lt_succ hlen), Option.map_none]

lemma staysInside_iff (self : EwahBitmap) (dest : Bitmap) : StaysInside self dest ↔
    ∃ n, followMarkers self.buffer 0 = some n ∧ n ≤ max dest.words.length (self.bitSize / bitsInEword + 1) := by
  have hgrown : (dest.words ++ List.replicate (self.bitSize / bitsInEword + 1 - dest.words.length) 0).length =
      max dest.words.length (self.bitSize / bitsInEword + 1) := by
    rw [List.length_append, List.length_replicate]
    omega
  constructor
  · intro h
    obtain ⟨n, hn⟩ := Option.ne_none_iff_exists'.mp ((eachBitReads_inside (Nat.zero_le _)).mp h.eachBit)
    obtain ⟨runs, hruns, hcount⟩ := followMarkers_eq_some hn
    refine ⟨n, hn, ?_⟩
    by_contra hover
    have hwords := remainingWords_of_stands (ewahIteratorInit_stands hruns)
    refine h.orEwah ?_
    rw [bitmapOrEwah, ewahWords, hwords, orEwahWords_eq_none (by omega), Option.map_none]
  · rintro ⟨n, hn, hle⟩
    obtain ⟨runs, hruns, hcount⟩ := followMarkers_eq_some hn
    have hstands := ewahIteratorInit_stands hruns
    refine ⟨(eachBitReads_inside (Nat.zero_le _)).mpr (by rw [hn]; exact Option.some_ne_none n), ?_, ?_⟩
    · refine List.forall_mem_append.mpr ⟨?_, ?_⟩
      · split_ifs with hpos
        · exact readRlwReads_inside _ hpos
        · exact fun p hp => absurd hp List.not_mem_nil
      · rw [← buffer_ewahIteratorInit self]
        exact iteratorReads_inside hstands
    · rw [bitmapOrEwah, ewahWords, remainingWords_of_stands hstands, orEwahWords_eq (by omega), Option.map_some]
      exact Option.some_ne_none _

lemma length_readWords (n : Nat) (ptr : List UInt8) : (readWords n ptr).length = n := by
  induction n generalizing ptr with
  | zero => rfl
  | succ n ih => rw [readWords, List.length_cons, ih]

lemma readWords_flatMap (buffer : List Eword) (rest : List UInt8) :
    readWords buffer.length (buffer.flatMap (fun word => beBytes 8 word.toNat) ++ rest) = buffer := by
  induction buffer with
  | nil => rfl
  | cons word buffer ih =>
    have hlen : (beBytes 8 word.toNat).length = 8 := length_beBytes 8 _
    have hvalue : word.toNat % 256 ^ 8 = word.toNat := Nat.mod_eq_of_lt word.isLt
    rw [List.length_cons, List.flatMap_cons, List.append_assoc, readWords, List.take_left' hlen, List.drop_left' hlen, ih,
      beValue_beBytes, hvalue, BitVec.ofNat_toNat, BitVec.setWidth_eq]

lemma length_flatMap_beBytes (buffer : List Eword) :
    (buffer.flatMap fun word => beBytes 8 word.toNat).length = buffer.length * 8 := by
  induction buffer with
  | nil => rfl
  | cons word buffer ih =>
    rw [List.flatMap_cons, List.length_append, length_beBytes, ih, List.length_cons, Nat.succ_mul, Nat.add_comm]

lemma ewahReadMmap_serialize (self : EwahBitmap) : ∃ buffer rlw used,
    ewahReadMmap (ewahSerializeTo self) = .ok (⟨buffer, self.bitSize % 2 ^ 32, rlw⟩, used) ∧
      buffer.length = self.buffer.length % 2 ^ 32 ∧
      (self.buffer.length < 2 ^ 32 → buffer = self.buffer ∧ rlw = self.rlw * 8 % 2 ^ 32 / 8) := by
  set m := self.buffer.length % 2 ^ 32 with hm
  set data := self.buffer.flatMap (fun word => beBytes 8 word.toNat) with hdata
  set tail := beBytes 4 (self.rlw * 8 % 2 ^ 32 / 8) with htail
  have hmap : ewahSerializeTo self = beBytes 4 (self.bitSize % 2 ^ 32) ++ (beBytes 4 m ++ (data ++ tail)) := by
    rw [ewahSerializeTo, List.append_assoc, List.append_assoc]
  have hfour : ∀ v, (beBytes 4 v).length = 4 := length_beBytes 4
  have hvalue : ∀ v, v < 2 ^ 32 → beValue (beBytes 4 v) = v := fun v hv => by
    rw [beValue_beBytes]
    exact Nat.mod_eq_of_lt (by omega)
  have hle : m ≤ self.buffer.length := Nat.mod_le _ _
  have hptr : (data ++ tail).length = self.buffer.length * 8 + 4 := by
    rw [List.length_append, hdata, length_flatMap_beBytes, htail, hfour]
  have hlong : ((data ++ tail).drop (m * 8)).length = self.buffer.length * 8 + 4 - m * 8 := by
    rw [List.length_drop, hptr]
  rw [ewahReadMmap, hmap, if_neg (by rw [List.length_append, hfour]; omega)]
  simp only [List.take_left' (hfour _), List.drop_left' (hfour _)]
  rw [if_neg (by rw [List.length_append, hfour]; omega), hvalue m (Nat.mod_lt _ (by decide)), if_neg (by omega),
    if_neg (by omega), hvalue _ (Nat.mod_lt _ (by decide))]
  refine ⟨_, _, _, rfl, length_readWords _ _, fun hlt => ?_⟩
  have hall : m = self.buffer.length := Nat.mod_eq_of_lt hlt
  rw [hall]
  have hdone : data.length = self.buffer.length * 8 := length_flatMap_beBytes _
  refine ⟨readWords_flatMap _ _, ?_⟩
  rw [List.drop_left' hdone, List.take_of_length_le (hfour _).le, hvalue _ (by omega)]

lemma readsBack_iff (self : EwahBitmap) : (∃ used, ewahReadMmap (ewahSerializeTo self) = .ok (self, used)) ↔
    self.bitSize < 2 ^ 32 ∧ self.buffer.length < 2 ^ 32 ∧ self.rlw * 8 < 2 ^ 32 := by
  obtain ⟨buffer, rlw, used, hread, hlength, hsame⟩ := ewahReadMmap_serialize self
  rw [hread]
  constructor
  · rintro ⟨used', heq⟩
    obtain ⟨hself, -⟩ := Prod.mk.inj (Except.ok.inj heq)
    have hsize := congrArg EwahBitmap.bitSize hself
    have hbuffer := congrArg EwahBitmap.buffer hself
    have hrlw := congrArg EwahBitmap.rlw hself
    simp only [] at hsize hbuffer hrlw
    rw [hbuffer] at hlength
    have hlt : self.buffer.length < 2 ^ 32 := by omega
    have hpos := (hsame hlt).2
    refine ⟨by omega, hlt, by omega⟩
  · rintro ⟨hsize, hlt, hrlw⟩
    obtain ⟨hbuffer, hpos⟩ := hsame hlt
    refine ⟨used, ?_⟩
    rw [hbuffer, hpos, Nat.mod_eq_of_lt hsize, Nat.mod_eq_of_lt hrlw, Nat.mul_div_cancel _ (by decide)]

end GitCore.Ewah
