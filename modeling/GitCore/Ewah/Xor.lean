import GitCore.Ewah.Plain

/-!
# The symmetric difference of compressed bitmaps

`ewah_xor` with the iterator of `ewok_rlw.h`, which keeps the numbers of a run-length word as `int`.
-/

namespace GitCore.Ewah

def toInt (n : Nat) : Int := (BitVec.ofNat 32 n).toInt

def toSizeT (x : Int) : Nat := (x % 2 ^ 64).toNat

structure RlwIterator where
  buffer : List Eword
  pointer : Nat
  literalWordStart : Nat
  literalWords : Int
  runningLen : Int
  literalWordOffset : Int
  runningBit : Bool

def rlwitWordSize (it : RlwIterator) : Nat := toSizeT (it.runningLen + it.literalWords)

def rlwitLiteralWords (it : RlwIterator) : Nat := toSizeT (it.pointer - it.literalWords)

def nextWord (it : RlwIterator) : Option RlwIterator :=
  if _h : it.pointer < it.buffer.length then
    let word := it.buffer[it.pointer]
    some { it with
      pointer := it.pointer + (rlwGetLiteralWords word).toNat + 1
      literalWords := toInt (rlwGetLiteralWords word).toNat
      runningLen := toInt (rlwGetRunningLen word).toNat
      runningBit := rlwGetRunBit word
      literalWordOffset := 0 }
  else none

def startLiterals (it : RlwIterator) : RlwIterator :=
  { it with literalWordStart := toSizeT (rlwitLiteralWords it + it.literalWordOffset) }

def rlwitInit (fromEwah : EwahBitmap) : RlwIterator :=
  let it : RlwIterator := ⟨fromEwah.buffer, 0, 0, 0, 0, 0, false⟩
  startLiterals ((nextWord it).getD it)

lemma nextWord_pointer {it it' : RlwIterator} (h : nextWord it = some it') :
    it'.buffer.length - it'.pointer < it.buffer.length - it.pointer := by
  rw [nextWord] at h
  split_ifs at h with hlt
  cases h
  change it.buffer.length - (it.pointer + _ + 1) < _
  omega

def rlwitDiscardFirstWords (it : RlwIterator) (x : Nat) : RlwIterator :=
  if x = 0 then it
  else if toSizeT it.runningLen > x then { it with runningLen := toInt (toSizeT it.runningLen - x) }
  else
    let x := x - toSizeT it.runningLen
    let discard := if x > toSizeT it.literalWords then toSizeT it.literalWords else x
    let left := { it with
      runningLen := 0
      literalWordStart := it.literalWordStart + discard
      literalWords := toInt (toSizeT it.literalWords - discard) }
    if x - discard > 0 ∨ rlwitWordSize left = 0 then
      match _h : nextWord left with
      | none => left
      | some it' => rlwitDiscardFirstWords (startLiterals it') (x - discard)
    else left
termination_by it.buffer.length - it.pointer
decreasing_by
  have hlt := nextWord_pointer _h
  exact hlt

lemma marker_bufferPushRlw (self : EwahBitmap) (value : Eword) : (bufferPushRlw self value).marker = value := by
  rw [EwahBitmap.marker]
  change (self.buffer ++ [value]).getD ((self.buffer ++ [value]).length - 1) 0 = value
  rw [List.length_append, List.length_singleton, Nat.add_sub_cancel, List.getD_eq_getElem?_getD, List.getElem?_concat_length]
  rfl

def negateWord (negate : Bool) (word : Eword) : Eword := if negate then ~~~word else word

/-- `can_add`: how many of the words the last run takes. -/
def dirtyRoom (self : EwahBitmap) (number : Nat) : Nat :=
  min number (rlwLargestLiteralCount.toNat - (rlwGetLiteralWords self.marker).toNat)

def addDirty (self : EwahBitmap) (buffer : List Eword) (canAdd : Nat) (negate : Bool) : EwahBitmap :=
  let literals := (rlwGetLiteralWords self.marker).toNat
  let marked := self.setMarker (rlwSetLiteralWords self.marker (BitVec.ofNat 64 (literals + canAdd)))
  { marked with
    buffer := marked.buffer ++ (buffer.take canAdd).map (negateWord negate)
    bitSize := marked.bitSize + canAdd * bitsInEword }

lemma dirtyRoom_measure (self next : EwahBitmap) (number : Nat) (hmore : number - dirtyRoom self number ≠ 0) :
    2 * (number - dirtyRoom self number) +
        (rlwGetLiteralWords (bufferPushRlw next 0).marker).toNat / rlwLargestLiteralCount.toNat <
      2 * number + (rlwGetLiteralWords self.marker).toNat / rlwLargestLiteralCount.toNat := by
  have hzero : (rlwGetLiteralWords 0).toNat = 0 := by decide
  have hlt := literalWords_lt self.marker
  rw [marker_bufferPushRlw, hzero]
  rw [dirtyRoom, toNat_largestLiteral] at hmore ⊢
  omega

def ewahAddDirtyWords (self : EwahBitmap) (buffer : List Eword) (number : Nat) (negate : Bool) : EwahBitmap :=
  let canAdd := dirtyRoom self number
  let filled := addDirty self buffer canAdd negate
  if _h : number - canAdd = 0 then filled
  else ewahAddDirtyWords (bufferPushRlw filled 0) (buffer.drop canAdd) (number - canAdd) negate
termination_by 2 * number + (rlwGetLiteralWords self.marker).toNat / rlwLargestLiteralCount.toNat
decreasing_by exact dirtyRoom_measure self _ number _h

def rlwitDischarge : Nat → RlwIterator → EwahBitmap → Nat → Nat → Bool → Option (RlwIterator × EwahBitmap × Nat)
  | 0, _, _, _, _, _ => none
  | fuel + 1, it, out, max, index, negate =>
    if index < max ∧ rlwitWordSize it > 0 then
      let pl := if (index + toSizeT it.runningLen) % 2 ^ 64 > max then max - index else toSizeT it.runningLen
      let out := (ewahAddEmptyWords out (it.runningBit ^^ negate) pl).1
      let index := (index + pl) % 2 ^ 64
      let pd := if (toSizeT it.literalWords + index) % 2 ^ 64 > max then max - index else toSizeT it.literalWords
      let out := ewahAddDirtyWords out (it.buffer.drop it.literalWordStart) pd negate
      rlwitDischarge fuel (rlwitDiscardFirstWords it (pd + pl)) out max (index + pd) negate
    else some (it, out, index)

/-- One round of the inner loop: the predator's run is consumed, and as many words of the prey. -/
def hunt (fuel : Nat) (prey predator : RlwIterator) (out : EwahBitmap) :
    Option (RlwIterator × RlwIterator × EwahBitmap) :=
  let negateWords := predator.runningBit
  (rlwitDischarge fuel prey out (toSizeT predator.runningLen) 0 negateWords).map fun result =>
    (result.1, rlwitDiscardFirstWords predator (toSizeT predator.runningLen),
      (ewahAddEmptyWords result.2.1 negateWords (toSizeT predator.runningLen - result.2.2)).1)

def xorRuns : Nat → RlwIterator → RlwIterator → EwahBitmap → Option (RlwIterator × RlwIterator × EwahBitmap)
  | 0, _, _, _ => none
  | fuel + 1, rlwI, rlwJ, out =>
    if rlwI.runningLen > 0 ∨ rlwJ.runningLen > 0 then
      if rlwI.runningLen < rlwJ.runningLen then
        (hunt fuel rlwI rlwJ out).bind fun result => xorRuns fuel result.1 result.2.1 result.2.2
      else
        (hunt fuel rlwJ rlwI out).bind fun result => xorRuns fuel result.2.1 result.1 result.2.2
    else some (rlwI, rlwJ, out)

/-- The loop over `k`, where both have literal words. -/
def addXors (rlwI rlwJ : RlwIterator) (literals : Nat) (out : EwahBitmap) : EwahBitmap :=
  (List.range literals).foldl (fun out k => (ewahAdd out (rlwI.buffer.getD (rlwI.literalWordStart + k) 0 ^^^
    rlwJ.buffer.getD (rlwJ.literalWordStart + k) 0)).1) out

def xorLoop : Nat → RlwIterator → RlwIterator → EwahBitmap → Option (RlwIterator × RlwIterator × EwahBitmap)
  | 0, _, _, _ => none
  | fuel + 1, rlwI, rlwJ, out =>
    if rlwitWordSize rlwI > 0 ∧ rlwitWordSize rlwJ > 0 then
      (xorRuns fuel rlwI rlwJ out).bind fun result =>
        let literals := min (toSizeT result.1.literalWords) (toSizeT result.2.1.literalWords)
        if literals = 0 then xorLoop fuel result.1 result.2.1 result.2.2
        else xorLoop fuel (rlwitDiscardFirstWords result.1 literals) (rlwitDiscardFirstWords result.2.1 literals)
          (addXors result.1 result.2.1 literals result.2.2)
    else some (rlwI, rlwJ, out)

def ewahXor (fuel : Nat) (ewahI ewahJ out : EwahBitmap) : Option EwahBitmap :=
  (xorLoop fuel (rlwitInit ewahI) (rlwitInit ewahJ) out).bind fun result =>
    (if rlwitWordSize result.1 > 0 then rlwitDischarge fuel result.1 result.2.2 (2 ^ 64 - 1) 0 false
      else rlwitDischarge fuel result.2.1 result.2.2 (2 ^ 64 - 1) 0 false).map fun last =>
        { last.2.1 with bitSize := max ewahI.bitSize ewahJ.bitSize }

def NoGap : List Run → Prop
  | [] => True
  | r :: runs => (r.words = [] → decode runs = []) ∧ NoGap runs

/-- The words of the run fit into an `int`. -/
def Run.Small (r : Run) : Prop := (rlwGetRunningLen r.marker).toNat + r.literals.length < 2 ^ 31

def FitsInt (self : EwahBitmap) : Prop := ∀ runs, self.buffer = encode runs → NoGap runs ∧ ∀ r ∈ runs, r.Small

lemma toInt_of_lt {n : Nat} (h : n < 2 ^ 31) : toInt n = n := by
  rw [toInt, BitVec.toInt_eq_toNat_of_lt (by rw [BitVec.toNat_ofNat]; omega), BitVec.toNat_ofNat,
    Nat.mod_eq_of_lt (by omega)]

lemma toSizeT_of_lt {n : Nat} (h : n < 2 ^ 64) : toSizeT n = n := by
  rw [toSizeT, Int.emod_eq_of_lt (Int.natCast_nonneg n) (by exact_mod_cast h), Int.toNat_natCast]

structure InRun (it : RlwIterator) (run : Nat) (literals : List Eword) (after : List Run) : Prop where
  runningLen : it.runningLen = run
  literalWords : it.literalWords = literals.length
  small : run + literals.length < 2 ^ 31
  start : it.buffer.drop it.literalWordStart = literals ++ encode after
  pointer : it.buffer.drop it.pointer = encode after
  inside : it.pointer ≤ it.buffer.length
  size : it.buffer.length < 2 ^ 64
  last : run + literals.length = 0 → decode after = []
  noGap : NoGap after
  allSmall : ∀ r ∈ after, r.Small

section InRun

variable {it : RlwIterator} {run : Nat} {literals : List Eword} {after : List Run}

lemma InRun.toSizeT_runningLen (h : InRun it run literals after) : toSizeT it.runningLen = run := by
  have := h.small
  rw [h.runningLen, toSizeT_of_lt (by omega)]

lemma InRun.toSizeT_literalWords (h : InRun it run literals after) : toSizeT it.literalWords = literals.length := by
  have := h.small
  rw [h.literalWords, toSizeT_of_lt (by omega)]

lemma InRun.wordSize (h : InRun it run literals after) : rlwitWordSize it = run + literals.length := by
  have := h.small
  rw [rlwitWordSize, h.runningLen, h.literalWords, ← Nat.cast_add, toSizeT_of_lt (by omega)]

lemma nextWord_inRun {r : Run} (hpointer : it.buffer.drop it.pointer = encode (r :: after))
    (hsize : it.buffer.length < 2 ^ 64) (hgap : NoGap (r :: after)) (hsmall : ∀ s ∈ r :: after, s.Small) :
    ∃ it', nextWord it = some it' ∧ (startLiterals it').runningBit = rlwGetRunBit r.marker ∧
      (startLiterals it').buffer = it.buffer ∧
      InRun (startLiterals it') (rlwGetRunningLen r.marker).toNat r.literals after := by
  have hlt : it.pointer < it.buffer.length := by
    by_contra hge
    rw [List.drop_eq_nil_of_le (Nat.not_lt.mp hge), encode_cons] at hpointer
    cases hpointer
  rw [encode_cons, List.drop_eq_getElem_cons hlt] at hpointer
  obtain ⟨hword, hrest⟩ := List.cons.inj hpointer
  have hr : r.Small := hsmall r List.mem_cons_self
  have hlength := congrArg List.length hrest
  rw [List.length_drop, List.length_append] at hlength
  rw [Run.Small] at hr
  have hcount : (rlwGetLiteralWords it.buffer[it.pointer]).toNat = r.literals.length := by rw [hword, ← r.counted]
  have hliterals : toInt (rlwGetLiteralWords it.buffer[it.pointer]).toNat = r.literals.length := by
    rw [hcount, toInt_of_lt (by omega)]
  have hstart : toSizeT ((it.pointer + (rlwGetLiteralWords it.buffer[it.pointer]).toNat + 1 : Nat) -
      toInt (rlwGetLiteralWords it.buffer[it.pointer]).toNat) = it.pointer + 1 := by
    have hcast : ((it.pointer + r.literals.length + 1 : Nat) : Int) - (r.literals.length : Int) =
        ((it.pointer + 1 : Nat) : Int) := by
      push_cast
      ring
    rw [hliterals, hcount, hcast, toSizeT_of_lt (by omega)]
  have hoffset : toSizeT (((it.pointer + 1 : Nat) : Int) + 0) = it.pointer + 1 := by
    rw [add_zero, toSizeT_of_lt (by omega)]
  have hdrop : it.buffer.drop (it.pointer + r.literals.length + 1) = encode after := by
    rw [Nat.add_right_comm, ← List.drop_drop, hrest, List.drop_left]
  have hnext : nextWord it = some { it with
      pointer := it.pointer + (rlwGetLiteralWords it.buffer[it.pointer]).toNat + 1
      literalWords := toInt (rlwGetLiteralWords it.buffer[it.pointer]).toNat
      runningLen := toInt (rlwGetRunningLen it.buffer[it.pointer]).toNat
      runningBit := rlwGetRunBit it.buffer[it.pointer]
      literalWordOffset := 0 } := by rw [nextWord, dif_pos hlt]
  refine ⟨_, hnext, ?_, rfl, ?_, hliterals, hr, ?_, ?_, ?_, hsize, fun hzero => ?_, hgap.2,
    fun s hs => hsmall s (List.mem_cons_of_mem r hs)⟩
  · rw [← hword]
    rfl
  · change toInt (rlwGetRunningLen it.buffer[it.pointer]).toNat = _
    rw [hword, toInt_of_lt (by omega)]
  · change it.buffer.drop (toSizeT (((toSizeT _ : Nat) : Int) + 0)) = _
    rw [hstart, hoffset]
    exact hrest
  · change it.buffer.drop (it.pointer + (rlwGetLiteralWords it.buffer[it.pointer]).toNat + 1) = _
    rw [hcount]
    exact hdrop
  · change it.pointer + (rlwGetLiteralWords it.buffer[it.pointer]).toNat + 1 ≤ it.buffer.length
    omega
  · refine hgap.1 (List.eq_nil_of_length_eq_zero ?_)
    rw [length_words, ← r.counted]
    exact hzero

def leftOf (bit : Bool) (run : Nat) (literals : List Eword) (after : List Run) : List Eword :=
  List.replicate run (fillWord bit) ++ (literals ++ decode after)

lemma length_leftOf (bit : Bool) (run : Nat) (literals : List Eword) (after : List Run) :
    (leftOf bit run literals after).length = run + literals.length + (decode after).length := by
  rw [leftOf, List.length_append, List.length_append, List.length_replicate, Nat.add_assoc]

def RlwStands (it : RlwIterator) (rest : List Eword) : Prop :=
  ∃ run literals after, InRun it run literals after ∧ rest = leftOf it.runningBit run literals after

lemma InRun.discardRun (h : InRun it run literals after) {x : Nat} (hx : x < run) :
    RlwStands { it with runningLen := toInt (toSizeT it.runningLen - x) }
      ((leftOf it.runningBit run literals after).drop x) := by
  have hsmall := h.small
  refine ⟨run - x, literals, after, ⟨?_, h.literalWords, by omega, h.start, h.pointer, h.inside, h.size,
    fun hzero => ?_, h.noGap, h.allSmall⟩, ?_⟩
  · rw [h.toSizeT_runningLen, toInt_of_lt (by omega)]
  · omega
  · rw [leftOf, List.drop_append_of_le_length (by rw [List.length_replicate]; omega), List.drop_replicate]
    rfl

def behindLiterals (it : RlwIterator) (discard : Nat) : RlwIterator :=
  { it with
    runningLen := 0
    literalWordStart := it.literalWordStart + discard
    literalWords := toInt (toSizeT it.literalWords - discard) }

lemma InRun.wordSize_behindLiterals (h : InRun it run literals after) (discard : Nat) :
    rlwitWordSize (behindLiterals it discard) = literals.length - discard := by
  have hsmall := h.small
  rw [rlwitWordSize, behindLiterals]
  simp only []
  rw [h.toSizeT_literalWords, toInt_of_lt (by omega), zero_add, toSizeT_of_lt (by omega)]

lemma InRun.discardLiterals (h : InRun it run literals after) {discard : Nat} (hlt : discard < literals.length) :
    InRun (behindLiterals it discard) 0 (literals.drop discard) after := by
  have hsmall := h.small
  refine ⟨rfl, ?_, ?_, ?_, h.pointer, h.inside, h.size, fun hzero => ?_, h.noGap, h.allSmall⟩
  · rw [behindLiterals]
    simp only []
    rw [h.toSizeT_literalWords, toInt_of_lt (by omega), List.length_drop]
  · rw [List.length_drop]
    omega
  · change it.buffer.drop (it.literalWordStart + discard) = _
    rw [← List.drop_drop, h.start, List.drop_append_of_le_length (by omega)]
  · rw [List.length_drop] at hzero
    omega

lemma InRun.atEnd (h : InRun it run literals []) :
    nextWord (behindLiterals it literals.length) = none ∧ InRun (behindLiterals it literals.length) 0 [] [] := by
  have hpointer : it.buffer.length ≤ it.pointer := by
    have hlength := congrArg List.length h.pointer
    rw [List.length_drop] at hlength
    exact Nat.le_of_sub_eq_zero hlength
  refine ⟨dif_neg (Nat.not_lt.mpr hpointer), rfl, ?_, by decide, ?_, h.pointer, h.inside, h.size, fun _ => rfl, trivial,
    fun r hr => absurd hr List.not_mem_nil⟩
  · rw [behindLiterals]
    simp only []
    rw [h.toSizeT_literalWords, Nat.sub_self]
    rfl
  · change it.buffer.drop (it.literalWordStart + literals.length) = _
    rw [← List.drop_drop, h.start, List.drop_left]
    rfl

lemma InRun.discard_of_lt (h : InRun it run literals after) {x : Nat} (hpos : x ≠ 0) (hrun : run ≤ x)
    (hlt : x - run < literals.length) : rlwitDiscardFirstWords it x = behindLiterals it (x - run) := by
  rw [rlwitDiscardFirstWords, if_neg hpos, if_neg (by rw [h.toSizeT_runningLen]; omega)]
  simp only [h.toSizeT_runningLen, h.toSizeT_literalWords, if_neg (Nat.not_lt.mpr hlt.le)]
  have hsize := h.wordSize_behindLiterals (x - run)
  simp only [behindLiterals, h.toSizeT_literalWords] at hsize ⊢
  rw [if_neg (by rw [hsize]; omega)]

lemma InRun.discard_of_le (h : InRun it run literals after) {x : Nat} (hpos : x ≠ 0) (hrun : run ≤ x)
    (hle : literals.length ≤ x - run) :
    rlwitDiscardFirstWords it x = (nextWord (behindLiterals it literals.length)).elim
      (behindLiterals it literals.length)
      fun it' => rlwitDiscardFirstWords (startLiterals it') (x - run - literals.length) := by
  have hdiscard : (if x - run > literals.length then literals.length else x - run) = literals.length := by
    split_ifs <;> omega
  rw [rlwitDiscardFirstWords, if_neg hpos, if_neg (by rw [h.toSizeT_runningLen]; omega)]
  simp only [h.toSizeT_runningLen, h.toSizeT_literalWords, hdiscard]
  have hsize := h.wordSize_behindLiterals literals.length
  simp only [behindLiterals, h.toSizeT_literalWords] at hsize ⊢
  rw [if_pos (by rw [hsize]; omega)]
  split
  · rename_i hnext
    simp only [h.toSizeT_runningLen, h.toSizeT_literalWords, hdiscard] at hnext
    rw [hnext]
    rfl
  · rename_i hnext
    simp only [h.toSizeT_runningLen, h.toSizeT_literalWords, hdiscard] at hnext
    rw [hnext]
    rfl

lemma drop_leftOf {bit : Bool} {x : Nat} (hrun : run ≤ x) :
    (leftOf bit run literals after).drop x = (literals ++ decode after).drop (x - run) := by
  rw [leftOf, List.drop_append, List.length_replicate, List.drop_of_length_le (by rw [List.length_replicate]; exact hrun),
    List.nil_append]

lemma InRun.discard {x : Nat} (h : InRun it run literals after)
    (hx : x ≤ run + literals.length + (decode after).length) :
    RlwStands (rlwitDiscardFirstWords it x) ((leftOf it.runningBit run literals after).drop x) := by
  induction after generalizing it run literals x with
  | nil =>
    by_cases hzero : x = 0
    · rw [rlwitDiscardFirstWords, if_pos hzero, hzero]
      exact ⟨run, literals, [], h, rfl⟩
    by_cases hrun : x < run
    · rw [rlwitDiscardFirstWords, if_neg hzero, if_pos (by rw [h.toSizeT_runningLen]; exact hrun)]
      exact h.discardRun hrun
    rw [drop_leftOf (Nat.not_lt.mp hrun)]
    by_cases hlt : x - run < literals.length
    · rw [h.discard_of_lt hzero (Nat.not_lt.mp hrun) hlt, List.drop_append_of_le_length hlt.le]
      exact ⟨0, _, [], h.discardLiterals hlt, rfl⟩
    · obtain ⟨hnone, hend⟩ := h.atEnd
      rw [h.discard_of_le hzero (Nat.not_lt.mp hrun) (Nat.not_lt.mp hlt), hnone]
      refine ⟨0, [], [], hend, ?_⟩
      rw [List.drop_eq_nil_of_le]
      · rfl
      · rw [List.length_append]
        change literals.length + 0 ≤ x - run
        omega
  | cons r after ih =>
    by_cases hzero : x = 0
    · rw [rlwitDiscardFirstWords, if_pos hzero, hzero]
      exact ⟨run, literals, r :: after, h, rfl⟩
    by_cases hrun : x < run
    · rw [rlwitDiscardFirstWords, if_neg hzero, if_pos (by rw [h.toSizeT_runningLen]; exact hrun)]
      exact h.discardRun hrun
    rw [drop_leftOf (Nat.not_lt.mp hrun)]
    by_cases hlt : x - run < literals.length
    · rw [h.discard_of_lt hzero (Nat.not_lt.mp hrun) hlt, List.drop_append_of_le_length hlt.le]
      exact ⟨0, _, r :: after, h.discardLiterals hlt, rfl⟩
    · obtain ⟨it', hnext, hbit, -, hin⟩ := @nextWord_inRun (behindLiterals it literals.length) after r h.pointer h.size
        h.noGap h.allSmall
      have hwords : r.words ++ decode after =
          leftOf (startLiterals it').runningBit (rlwGetRunningLen r.marker).toNat r.literals after := by
        rw [leftOf, hbit, Run.words, List.append_assoc]
      have hbound : x - run - literals.length ≤
          (rlwGetRunningLen r.marker).toNat + r.literals.length + (decode after).length := by
        rw [decode_cons, List.length_append, length_words, ← r.counted] at hx
        omega
      rw [h.discard_of_le hzero (Nat.not_lt.mp hrun) (Nat.not_lt.mp hlt), hnext, List.drop_append,
        List.drop_of_length_le (Nat.not_lt.mp hlt), List.nil_append, decode_cons, hwords]
      exact ih hin hbound

end InRun

lemma RlwStands.discard {it : RlwIterator} {rest : List Eword} (h : RlwStands it rest) {x : Nat} (hx : x ≤ rest.length) :
    RlwStands (rlwitDiscardFirstWords it x) (rest.drop x) := by
  obtain ⟨run, literals, after, hin, rfl⟩ := h
  rw [length_leftOf] at hx
  exact hin.discard hx

section Output

variable {self : EwahBitmap} {n : Nat} {words : List Eword}

lemma Holds.pushLiterals {runs : List Run} {last : Run} (h : Holds self n runs last) {word : Eword} {added : List Eword}
    (hword : (rlwGetLiteralWords word).toNat = last.literals.length + added.length) (k : Nat) :
    Holds ⟨(self.setMarker word).buffer ++ added, k, (self.setMarker word).rlw⟩ k runs
      ⟨word, last.literals ++ added, by rw [List.length_append, hword]⟩ := by
  refine ⟨?_, h.rlw, rfl⟩
  change self.buffer.set self.rlw word ++ added = _
  rw [h.buffer, h.rlw, List.set_append_right _ _ (Nat.le_refl _), Nat.sub_self, List.set_cons_zero, List.append_assoc,
    List.cons_append]

lemma addDirty_encodes {buffer : List Eword} {number : Nat} {negate : Bool} (h : Encodes self n words)
    (hnumber : number ≤ buffer.length) :
    Encodes (addDirty self buffer (dirtyRoom self number) negate) (n + dirtyRoom self number * bitsInEword)
      (words ++ (buffer.take (dirtyRoom self number)).map (negateWord negate)) := by
  obtain ⟨runs, last, hholds, rfl⟩ := h
  set canAdd := dirtyRoom self number with hcanAdd
  have hlt := literalWords_lt last.marker
  have hroom : canAdd ≤ buffer.length ∧ (rlwGetLiteralWords last.marker).toNat + canAdd < 2 ^ 31 := by
    rw [hcanAdd, dirtyRoom, hholds.marker, toNat_largestLiteral]
    omega
  have hnat : (BitVec.ofNat 64 ((rlwGetLiteralWords last.marker).toNat + canAdd)).toNat =
      (rlwGetLiteralWords last.marker).toNat + canAdd := by
    rw [BitVec.toNat_ofNat, Nat.mod_eq_of_lt (by omega)]
  have hword : (rlwGetLiteralWords (rlwSetLiteralWords last.marker
      (BitVec.ofNat 64 ((rlwGetLiteralWords last.marker).toNat + canAdd)))).toNat =
        last.literals.length + ((buffer.take canAdd).map (negateWord negate)).length := by
    rw [rlwGetLiteralWords_setLiteralWords _ (by rw [hnat]; exact hroom.2), hnat, List.length_map, List.length_take,
      Nat.min_eq_left hroom.1, last.counted]
  have hpushed := hholds.pushLiterals hword (self.bitSize + canAdd * bitsInEword)
  rw [← hholds.bitSize, addDirty, hholds.marker]
  refine ⟨runs, _, hpushed, ?_⟩
  rw [Run.words, Run.words, rlwGetRunningLen_setLiteralWords, rlwGetRunBit_setLiteralWords]
  simp only [List.append_assoc]

lemma Encodes.pushRlw (h : Encodes self n words) : Encodes (bufferPushRlw self 0) n words := by
  obtain ⟨runs, last, hholds, hwords⟩ := h
  exact ⟨_, _, hholds.push, (decode_push runs last).trans hwords⟩

lemma ewahAddDirtyWords_encodes {buffer : List Eword} {number : Nat} {negate : Bool} (h : Encodes self n words)
    (hnumber : number ≤ buffer.length) :
    Encodes (ewahAddDirtyWords self buffer number negate) (n + number * bitsInEword)
      (words ++ (buffer.take number).map (negateWord negate)) := by
  induction hsize : 2 * number + (rlwGetLiteralWords self.marker).toNat / rlwLargestLiteralCount.toNat
    using Nat.strong_induction_on generalizing self buffer number n words with
  | _ size ih =>
    have hle : dirtyRoom self number ≤ number := Nat.min_le_left _ _
    have hadded := @addDirty_encodes _ _ _ buffer number negate h hnumber
    rw [ewahAddDirtyWords]
    by_cases hdone : number - dirtyRoom self number = 0
    · have hall : dirtyRoom self number = number := by omega
      rw [dif_pos hdone]
      rw [hall] at hadded ⊢
      exact hadded
    · have hless := dirtyRoom_measure self (addDirty self buffer (dirtyRoom self number) negate) number hdone
      have hrest := @ih _ (hsize ▸ hless) _ _ _ (buffer.drop (dirtyRoom self number)) _ hadded.pushRlw
        (by rw [List.length_drop]; omega) rfl
      have hbits : n + dirtyRoom self number * bitsInEword + (number - dirtyRoom self number) * bitsInEword =
          n + number * bitsInEword := by
        rw [Nat.add_assoc, ← Nat.add_mul, Nat.add_sub_cancel' hle]
      have htake : (buffer.take (dirtyRoom self number)).map (negateWord negate) ++
          ((buffer.drop (dirtyRoom self number)).take (number - dirtyRoom self number)).map (negateWord negate) =
            (buffer.take number).map (negateWord negate) := by
        rw [← List.map_append, ← List.take_add, Nat.add_sub_cancel' hle]
      rw [hbits, List.append_assoc, htake] at hrest
      rw [dif_neg hdone]
      exact hrest

lemma ewahAddEmptyWords_encodes (h : Encodes self n words) (v : Bool) (number : Nat) :
    Encodes (ewahAddEmptyWords self v number).1 (n + number * bitsInEword)
      (words ++ List.replicate number (fillWord v)) := by
  rw [ewahAddEmptyWords]
  split
  · rename_i hzero
    rw [hzero, List.replicate_zero, List.append_nil, Nat.zero_mul, Nat.add_zero]
    exact h
  · rename_i hpos
    have hsize : self.bitSize = n := by
      obtain ⟨_, _, hholds, _⟩ := h
      exact hholds.bitSize
    rw [hsize]
    exact (addEmptyWords_stores (h.withBitSize _) v (Nat.pos_of_ne_zero hpos)).encodes

lemma ewahAdd_encodes (h : Encodes self n words) (word : Eword) :
    Encodes (ewahAdd self word).1 (n + bitsInEword) (words ++ [word]) := by
  have hsize : self.bitSize = n := by
    obtain ⟨_, _, hholds, _⟩ := h
    exact hholds.bitSize
  have hmore := h.withBitSize (n + bitsInEword)
  rw [ewahAdd, hsize]
  split
  · rename_i hzero
    rw [hzero]
    exact (addEmptyWord_stores hmore false).encodes
  · split
    · rename_i hones
      rw [hones]
      exact (addEmptyWord_stores hmore true).encodes
    · exact (addLiteral_stores hmore word).encodes

lemma negateWord_fillWord (negate bit : Bool) : negateWord negate (fillWord bit) = fillWord (bit ^^ negate) := by
  cases negate <;> cases bit <;> decide

lemma take_leftOf {bit : Bool} {run pl pd : Nat} {literals : List Eword} {after : List Run} (hpl : pl ≤ run)
    (hpd : pd ≤ literals.length) (hrun : pl = run ∨ pd = 0) :
    (leftOf bit run literals after).take (pl + pd) = List.replicate pl (fillWord bit) ++ literals.take pd := by
  rw [leftOf, List.take_append, List.length_replicate, List.take_replicate, List.take_append_of_le_length (by omega)]
  obtain rfl | rfl := hrun
  · rw [Nat.min_eq_right (Nat.le_add_right pl pd), Nat.add_sub_cancel_left]
  · have hzero : pl + 0 - run = 0 := by omega
    rw [hzero, Nat.add_zero, Nat.min_eq_left hpl]

lemma rlwitDischarge_eq {it : RlwIterator} {rest : List Eword} {max index fuel : Nat} {negate : Bool}
    (h : RlwStands it rest) (hout : Encodes self n words) (hindex : index ≤ max) (hmax : max < 2 ^ 64)
    (hrest : index + rest.length < 2 ^ 64) (hfuel : min (max - index) rest.length < fuel) :
    ∃ it' out, rlwitDischarge fuel it self max index negate = some (it', out, index + min (max - index) rest.length) ∧
      RlwStands it' (rest.drop (min (max - index) rest.length)) ∧
      Encodes out (n + min (max - index) rest.length * bitsInEword)
        (words ++ (rest.take (min (max - index) rest.length)).map (negateWord negate)) := by
  induction fuel generalizing it rest self n words index with
  | zero => exact absurd hfuel (Nat.not_lt_zero _)
  | succ fuel ih =>
    have hstands := h
    obtain ⟨run, literals, after, hin, rfl⟩ := h
    have hlength := length_leftOf it.runningBit run literals after
    rw [rlwitDischarge, hin.wordSize]
    by_cases hgo : index < max ∧ run + literals.length > 0
    · rw [if_pos hgo]
      simp only [hin.toSizeT_runningLen, hin.toSizeT_literalWords]
      have hpl : (if (index + run) % 2 ^ 64 > max then max - index else run) = min run (max - index) := by
        rw [Nat.mod_eq_of_lt (by omega)]
        split_ifs <;> omega
      have hnext : (index + min run (max - index)) % 2 ^ 64 = index + min run (max - index) :=
        Nat.mod_eq_of_lt (by omega)
      rw [hpl, hnext]
      have hpd : (if (literals.length + (index + min run (max - index))) % 2 ^ 64 > max then
          max - (index + min run (max - index)) else literals.length) =
            min literals.length (max - (index + min run (max - index))) := by
        rw [Nat.mod_eq_of_lt (by omega)]
        split_ifs <;> omega
      rw [hpd]
      obtain ⟨pl, hplDef⟩ : ∃ pl, min run (max - index) = pl := ⟨_, rfl⟩
      obtain ⟨pd, hpdDef⟩ : ∃ pd, min literals.length (max - (index + pl)) = pd := ⟨_, rfl⟩
      rw [hplDef, hpdDef]
      have hsource : pd ≤ (it.buffer.drop it.literalWordStart).length := by
        rw [hin.start, List.length_append]
        omega
      have htakeSource : (it.buffer.drop it.literalWordStart).take pd = literals.take pd := by
        rw [hin.start, List.take_append_of_le_length (by omega)]
      have hfilled := @ewahAddDirtyWords_encodes _ _ _ _ pd negate
        (ewahAddEmptyWords_encodes hout (it.runningBit ^^ negate) pl) hsource
      have hrun := @take_leftOf it.runningBit run pl pd literals after (by omega) (by omega) (by omega)
      have hmoved : List.replicate pl (fillWord (it.runningBit ^^ negate)) ++ (literals.take pd).map (negateWord negate) =
          ((leftOf it.runningBit run literals after).take (pl + pd)).map (negateWord negate) := by
        rw [hrun, List.map_append, List.map_replicate, negateWord_fillWord]
      rw [htakeSource, List.append_assoc, hmoved] at hfilled
      have hdiscarded := hstands.discard (x := pd + pl) (by omega)
      have hless : (leftOf it.runningBit run literals after).length - (pd + pl) =
          ((leftOf it.runningBit run literals after).drop (pd + pl)).length := by rw [List.length_drop]
      obtain ⟨it', out, hresult, hit', hout'⟩ := @ih _ _ _ _ _ (index + pl + pd) hdiscarded hfilled (by omega) (by omega)
        (by omega)
      have hcount : min (max - index) (leftOf it.runningBit run literals after).length =
          pl + pd + min (max - (index + pl + pd)) ((leftOf it.runningBit run literals after).drop (pd + pl)).length := by
        omega
      rw [hresult, hcount]
      refine ⟨it', out, ?_, ?_, ?_⟩
      · rw [← Nat.add_assoc, ← Nat.add_assoc]
      · rw [List.drop_drop, Nat.add_comm pd pl] at hit'
        rw [Nat.add_comm pd pl]
        exact hit'
      · rw [Nat.add_comm pd pl] at hout' ⊢
        rw [List.take_add, List.map_append, ← List.append_assoc, Nat.add_mul, Nat.add_mul, ← Nat.add_assoc,
          ← Nat.add_assoc]
        exact hout'
    · rw [if_neg hgo]
      have hnone : min (max - index) (leftOf it.runningBit run literals after).length = 0 := by
        by_cases hlt : index < max
        · have hzero : run + literals.length = 0 := Nat.eq_zero_of_not_pos fun hpos => hgo ⟨hlt, hpos⟩
          rw [hlength, hin.last hzero, hzero]
          exact Nat.min_zero _
        · omega
      rw [hnone]
      refine ⟨it, self, rfl, hstands, ?_⟩
      rw [Nat.zero_mul, List.take_zero, List.map_nil, List.append_nil]
      exact hout

end Output

def xorWords : List Eword → List Eword → List Eword
  | [], b => b
  | a, [] => a
  | x :: a, y :: b => (x ^^^ y) :: xorWords a b

lemma xorWords_nil (a : List Eword) : xorWords a [] = a := by
  cases a <;> rfl

lemma xorWords_comm (a b : List Eword) : xorWords a b = xorWords b a := by
  induction a generalizing b with
  | nil => rw [xorWords, xorWords_nil]
  | cons x a ih =>
    cases b with
    | nil => rfl
    | cons y b => rw [xorWords, xorWords, ih, BitVec.xor_comm]

lemma xor_fillWord (x : Eword) (bit : Bool) : x ^^^ fillWord bit = negateWord bit x := by
  cases bit with
  | false => exact BitVec.xor_zero
  | true => exact BitVec.xor_allOnes

lemma xorWords_run (a b : List Eword) (run : Nat) (bit : Bool) :
    xorWords a (List.replicate run (fillWord bit) ++ b) =
      (a.take (min run a.length)).map (negateWord bit) ++ List.replicate (run - min run a.length) (fillWord bit) ++
        xorWords (a.drop run) b := by
  induction run generalizing a with
  | zero => rw [Nat.zero_min]; rfl
  | succ run ih =>
    cases a with
    | nil =>
      rw [List.length_nil, Nat.min_zero, Nat.sub_zero, List.drop_nil]
      rfl
    | cons x a =>
      rw [List.replicate_succ, List.cons_append, xorWords, ih, List.length_cons, Nat.succ_min_succ, List.take_succ_cons,
        List.map_cons, Nat.succ_sub_succ, List.drop_succ_cons, xor_fillWord]
      rfl

lemma xorWords_split {a b : List Eword} {m : Nat} (ha : m ≤ a.length) (hb : m ≤ b.length) :
    xorWords a b = (List.range m).map (fun k => a.getD k 0 ^^^ b.getD k 0) ++ xorWords (a.drop m) (b.drop m) := by
  induction m generalizing a b with
  | zero => rfl
  | succ m ih =>
    cases a with
    | nil => cases ha
    | cons x a =>
      cases b with
      | nil => cases hb
      | cons y b =>
        rw [xorWords, ih (Nat.le_of_succ_le_succ ha) (Nat.le_of_succ_le_succ hb), List.range_succ_eq_map, List.map_cons,
          List.map_map]
        rfl

def Yields (out : EwahBitmap) (words : List Eword) : Prop := ∃ n, Encodes out n words

variable {rlwI rlwJ : RlwIterator} {restI restJ words : List Eword} {out : EwahBitmap} {fuel : Nat}

lemma hunt_eq {prey predator : RlwIterator} {rest : List Eword} {run : Nat} {literals : List Eword} {after : List Run}
    (hprey : RlwStands prey rest) (hpredator : InRun predator run literals after) (hout : Yields out words)
    (hrest : rest.length < 2 ^ 64) (hfuel : rest.length < fuel) :
    ∃ prey' predator' out', hunt fuel prey predator out = some (prey', predator', out') ∧
      RlwStands prey' (rest.drop run) ∧
      RlwStands predator' ((leftOf predator.runningBit run literals after).drop run) ∧
      ∃ words', Yields out' words' ∧
        words' ++ xorWords (rest.drop run) ((leftOf predator.runningBit run literals after).drop run) =
          words ++ xorWords rest (leftOf predator.runningBit run literals after) := by
  obtain ⟨n, hencodes⟩ := hout
  have hsmall := hpredator.small
  obtain ⟨prey', out₁, hresult, hprey', hout₁⟩ := @rlwitDischarge_eq _ _ _ _ _ run 0 fuel predator.runningBit hprey
    hencodes (Nat.zero_le _) (by omega) (by omega) (by omega)
  rw [Nat.sub_zero] at hresult hprey' hout₁
  rw [Nat.zero_add] at hresult
  have hpredator' : RlwStands (rlwitDiscardFirstWords predator run)
      ((leftOf predator.runningBit run literals after).drop run) := by
    refine RlwStands.discard ⟨run, literals, after, hpredator, rfl⟩ ?_
    rw [length_leftOf]
    omega
  have hdrop : rest.drop (min run rest.length) = rest.drop run := by
    rcases Nat.le_total run rest.length with hle | hle
    · rw [Nat.min_eq_left hle]
    · rw [Nat.min_eq_right hle, List.drop_length, List.drop_of_length_le hle]
  refine ⟨prey', _, _, ?_, hdrop ▸ hprey', hpredator', _,
    ⟨_, ewahAddEmptyWords_encodes hout₁ predator.runningBit (run - min run rest.length)⟩, ?_⟩
  · rw [hunt]
    simp only [hpredator.toSizeT_runningLen, hresult]
    rfl
  · have hleft : (leftOf predator.runningBit run literals after).drop run = literals ++ decode after := by
      rw [drop_leftOf le_rfl, Nat.sub_self]
      rfl
    rw [hleft, leftOf, xorWords_run]
    simp only [List.append_assoc]

lemma RlwStands.wordSize (h : RlwStands rlwI restI) : rlwitWordSize rlwI > 0 ↔ restI ≠ [] := by
  obtain ⟨run, literals, after, hin, rfl⟩ := h
  rw [hin.wordSize, ← List.length_pos_iff, length_leftOf]
  constructor
  · omega
  · intro hpos
    by_contra hzero
    rw [hin.last (by omega)] at hpos
    exact hzero (by simpa using hpos)

def AtLiterals (it : RlwIterator) (rest : List Eword) : Prop :=
  ∃ literals after, InRun it 0 literals after ∧ rest = literals ++ decode after

lemma AtLiterals.stands (h : AtLiterals rlwI restI) : RlwStands rlwI restI := by
  obtain ⟨literals, after, hin, rfl⟩ := h
  exact ⟨0, literals, after, hin, rfl⟩

lemma RlwStands.atLiterals (h : RlwStands rlwI restI) (hrun : ¬ rlwI.runningLen > 0) : AtLiterals rlwI restI := by
  obtain ⟨run, literals, after, hin, rfl⟩ := h
  rw [hin.runningLen] at hrun
  obtain rfl : run = 0 := by omega
  exact ⟨literals, after, hin, rfl⟩

lemma xorRuns_eq (hI : RlwStands rlwI restI) (hJ : RlwStands rlwJ restJ) (hout : Yields out words)
    (hbound : restI.length + restJ.length < 2 ^ 64) (hfuel : restI.length + restJ.length < fuel) :
    ∃ rlwI' rlwJ' out' restI' restJ' words', xorRuns fuel rlwI rlwJ out = some (rlwI', rlwJ', out') ∧
      AtLiterals rlwI' restI' ∧ AtLiterals rlwJ' restJ' ∧ Yields out' words' ∧
      words' ++ xorWords restI' restJ' = words ++ xorWords restI restJ ∧
      (restI' = restI ∧ restJ' = restJ ∨ restI'.length + restJ'.length < restI.length + restJ.length) := by
  induction fuel generalizing rlwI rlwJ out restI restJ words with
  | zero => exact absurd hfuel (Nat.not_lt_zero _)
  | succ fuel ih =>
    rw [xorRuns]
    by_cases hgo : rlwI.runningLen > 0 ∨ rlwJ.runningLen > 0
    · rw [if_pos hgo]
      by_cases hlt : rlwI.runningLen < rlwJ.runningLen
      · obtain ⟨run, literals, after, hin, hrest⟩ := hJ
        have hpos : 0 < run := by
          have hrun := hin.runningLen
          omega
        have hlength := length_leftOf rlwJ.runningBit run literals after
        rw [← hrest] at hlength
        obtain ⟨prey, predator, out₁, hhunt, hprey, hpredator, words₁, hyields, htotal⟩ :=
          hunt_eq hI hin hout (by omega) (show restI.length < fuel by omega)
        rw [← hrest] at hpredator htotal
        have hless : (restI.drop run).length + (restJ.drop run).length < restI.length + restJ.length := by
          rw [List.length_drop, List.length_drop]
          omega
        obtain ⟨rlwI', rlwJ', out', restI', restJ', words', hresult, hI', hJ', hyields', htotal', hleft⟩ :=
          ih hprey hpredator hyields (by omega) (by omega)
        refine ⟨rlwI', rlwJ', out', restI', restJ', words', ?_, hI', hJ', hyields', htotal'.trans htotal, .inr ?_⟩
        · rw [if_pos hlt, hhunt]
          exact hresult
        · obtain ⟨rfl, rfl⟩ | hstep := hleft
          · exact hless
          · exact hstep.trans hless
      · obtain ⟨run, literals, after, hin, hrest⟩ := hI
        have hpos : 0 < run := by
          have hrun := hin.runningLen
          omega
        have hlength := length_leftOf rlwI.runningBit run literals after
        rw [← hrest] at hlength
        obtain ⟨prey, predator, out₁, hhunt, hprey, hpredator, words₁, hyields, htotal⟩ :=
          hunt_eq hJ hin hout (by omega) (show restJ.length < fuel by omega)
        rw [← hrest, xorWords_comm, xorWords_comm restJ] at htotal
        rw [← hrest] at hpredator
        have hless : (restI.drop run).length + (restJ.drop run).length < restI.length + restJ.length := by
          rw [List.length_drop, List.length_drop]
          omega
        obtain ⟨rlwI', rlwJ', out', restI', restJ', words', hresult, hI', hJ', hyields', htotal', hleft⟩ :=
          ih hpredator hprey hyields (by omega) (by omega)
        refine ⟨rlwI', rlwJ', out', restI', restJ', words', ?_, hI', hJ', hyields', htotal'.trans htotal, .inr ?_⟩
        · rw [if_neg hlt, hhunt]
          exact hresult
        · obtain ⟨rfl, rfl⟩ | hstep := hleft
          · exact hless
          · exact hstep.trans hless
    · rw [if_neg hgo]
      obtain ⟨hrunI, hrunJ⟩ := not_or.mp hgo
      exact ⟨rlwI, rlwJ, out, restI, restJ, words, rfl, hI.atLiterals hrunI, hJ.atLiterals hrunJ, hout, rfl,
        .inl ⟨rfl, rfl⟩⟩

lemma addXors_yields (hout : Yields out words) (literals : Nat) :
    Yields (addXors rlwI rlwJ literals out) (words ++ (List.range literals).map fun k =>
      rlwI.buffer.getD (rlwI.literalWordStart + k) 0 ^^^ rlwJ.buffer.getD (rlwJ.literalWordStart + k) 0) := by
  induction literals with
  | zero =>
    rw [List.range_zero, List.map_nil, List.append_nil]
    exact hout
  | succ literals ih =>
    obtain ⟨n, hencodes⟩ := ih
    rw [addXors, List.range_succ, List.foldl_append, List.map_append, ← List.append_assoc]
    exact ⟨_, ewahAdd_encodes hencodes _⟩

lemma InRun.getD_literal {it : RlwIterator} {literals : List Eword} {after : List Run} (h : InRun it 0 literals after)
    {k : Nat} (hk : k < literals.length) :
    it.buffer.getD (it.literalWordStart + k) 0 = (literals ++ decode after).getD k 0 := by
  rw [List.getD_eq_getElem?_getD, ← List.getElem?_drop, h.start, List.getElem?_append_left hk,
    List.getD_eq_getElem?_getD, List.getElem?_append_left hk]

lemma xorLoop_eq (hI : RlwStands rlwI restI) (hJ : RlwStands rlwJ restJ) (hout : Yields out words)
    (hbound : restI.length + restJ.length < 2 ^ 64) (hfuel : restI.length + restJ.length + 1 < fuel) :
    ∃ rlwI' rlwJ' out' restI' restJ' words', xorLoop fuel rlwI rlwJ out = some (rlwI', rlwJ', out') ∧
      RlwStands rlwI' restI' ∧ RlwStands rlwJ' restJ' ∧ Yields out' words' ∧
      words' ++ xorWords restI' restJ' = words ++ xorWords restI restJ ∧
      restI'.length + restJ'.length ≤ restI.length + restJ.length ∧ (restI' = [] ∨ restJ' = []) := by
  induction fuel generalizing rlwI rlwJ out restI restJ words with
  | zero => exact absurd hfuel (Nat.not_lt_zero _)
  | succ fuel ih =>
    rw [xorLoop]
    by_cases hgo : rlwitWordSize rlwI > 0 ∧ rlwitWordSize rlwJ > 0
    · rw [if_pos hgo]
      have hneI := hI.wordSize.mp hgo.1
      have hneJ := hJ.wordSize.mp hgo.2
      obtain ⟨rlwI₁, rlwJ₁, out₁, restI₁, restJ₁, words₁, hresult, hI₁, hJ₁, hyields, htotal, hleft⟩ :=
        xorRuns_eq hI hJ hout hbound (show restI.length + restJ.length < fuel by omega)
      rw [hresult, Option.bind_some]
      obtain ⟨litsI, afterI, hinI, hrestI⟩ := id hI₁
      obtain ⟨litsJ, afterJ, hinJ, hrestJ⟩ := id hJ₁
      simp only [hinI.toSizeT_literalWords, hinJ.toSizeT_literalWords]
      by_cases hnone : min litsI.length litsJ.length = 0
      · rw [if_pos hnone]
        -- one of them has come to its end in the inner loop
        have hless : restI₁.length + restJ₁.length < restI.length + restJ.length := by
          obtain ⟨rfl, rfl⟩ | hless := hleft
          · exfalso
            rcases Nat.min_eq_zero_iff.mp hnone with hzero | hzero
            · refine hneI ?_
              rw [hrestI, hinI.last (by omega), List.eq_nil_of_length_eq_zero hzero]
              rfl
            · refine hneJ ?_
              rw [hrestJ, hinJ.last (by omega), List.eq_nil_of_length_eq_zero hzero]
              rfl
          · exact hless
        obtain ⟨rlwI', rlwJ', out', restI', restJ', words', hloop, hI', hJ', hyields', htotal', hle, hend⟩ :=
          ih hI₁.stands hJ₁.stands hyields (by omega) (by omega)
        exact ⟨rlwI', rlwJ', out', restI', restJ', words', hloop, hI', hJ', hyields', htotal'.trans htotal,
          by omega, hend⟩
      · rw [if_neg hnone]
        obtain ⟨m, hm⟩ : ∃ m, min litsI.length litsJ.length = m := ⟨_, rfl⟩
        rw [hm] at hnone ⊢
        have hmI : m ≤ restI₁.length := by
          rw [hrestI, List.length_append]
          omega
        have hmJ : m ≤ restJ₁.length := by
          rw [hrestJ, List.length_append]
          omega
        have hadded := @addXors_yields rlwI₁ rlwJ₁ _ _ hyields m
        have hwords : ((List.range m).map fun k => rlwI₁.buffer.getD (rlwI₁.literalWordStart + k) 0 ^^^
            rlwJ₁.buffer.getD (rlwJ₁.literalWordStart + k) 0) =
              (List.range m).map fun k => restI₁.getD k 0 ^^^ restJ₁.getD k 0 := by
          refine List.map_congr_left fun k hk => ?_
          have hkm := List.mem_range.mp hk
          rw [hinI.getD_literal (by omega), hinJ.getD_literal (by omega), hrestI, hrestJ]
        have hsplit := xorWords_split hmI hmJ
        have hleft' : restI₁.length + restJ₁.length ≤ restI.length + restJ.length := by
          obtain ⟨rfl, rfl⟩ | hless := hleft
          · exact le_rfl
          · exact hless.le
        have hdropI : (restI₁.drop m).length = restI₁.length - m := List.length_drop
        have hdropJ : (restJ₁.drop m).length = restJ₁.length - m := List.length_drop
        rw [hwords] at hadded
        obtain ⟨rlwI', rlwJ', out', restI', restJ', words', hloop, hI', hJ', hyields', htotal', hle, hend⟩ :=
          ih (hI₁.stands.discard hmI) (hJ₁.stands.discard hmJ) hadded (by omega) (by omega)
        refine ⟨rlwI', rlwJ', out', restI', restJ', words', hloop, hI', hJ', hyields', ?_, by omega, hend⟩
        rw [htotal', List.append_assoc, ← hsplit, htotal]
    · rw [if_neg hgo]
      refine ⟨rlwI, rlwJ, out, restI, restJ, words, rfl, hI, hJ, hout, rfl, le_rfl, ?_⟩
      rw [hI.wordSize, hJ.wordSize] at hgo
      by_contra hboth
      exact hgo (not_or.mp hboth)

lemma getD_xorWords (a b : List Eword) (k : Nat) : (xorWords a b).getD k 0 = a.getD k 0 ^^^ b.getD k 0 := by
  induction a generalizing b k with
  | nil => rw [xorWords, List.getD_nil, BitVec.ofNat_eq_ofNat, BitVec.zero_xor]
  | cons x a ih =>
    cases b with
    | nil => rw [xorWords_nil, List.getD_nil, BitVec.ofNat_eq_ofNat, BitVec.xor_zero]
    | cons y b =>
      cases k with
      | zero => rfl
      | succ k => exact ih b k

lemma bitIn_xorWords (a b : List Eword) (p : Nat) : bitIn (xorWords a b) p = (bitIn a p ^^ bitIn b p) := by
  rw [bitIn, getD_xorWords, BitVec.getLsbD_xor]
  rfl

lemma length_xorWords (a b : List Eword) : (xorWords a b).length = max a.length b.length := by
  induction a generalizing b with
  | nil => rw [xorWords, List.length_nil, Nat.zero_max]
  | cons x a ih =>
    cases b with
    | nil => rw [xorWords_nil, List.length_nil, Nat.max_zero]
    | cons y b => rw [xorWords, List.length_cons, ih, List.length_cons, List.length_cons, Nat.succ_max_succ]

lemma divRoundUp_max (m n : Nat) :
    divRoundUp (max m n) bitsInEword = max (divRoundUp m bitsInEword) (divRoundUp n bitsInEword) := by
  rw [divRoundUp, divRoundUp, divRoundUp, bitsInEword]
  omega

/-- What `size_t` can hold. -/
structure InMemory (ewah : EwahBitmap) : Prop where
  bitSize : ewah.bitSize < 2 ^ 64
  buffer : ewah.buffer.length < 2 ^ 64

lemma rlwitInit_stands {self : EwahBitmap} {n : Nat} (h : Encodes self n words) (hfits : FitsInt self)
    (hmemory : InMemory self) : RlwStands (rlwitInit self) words := by
  obtain ⟨runs, last, hholds, hwords⟩ := h
  have hbuffer : self.buffer = encode (runs ++ [last]) := by
    rw [hholds.buffer, encode_append, encode_cons]
    exact congrArg (encode runs ++ last.marker :: ·) (List.append_nil _).symm
  have hdecode : decode (runs ++ [last]) = words := by
    rw [← hwords, decode, List.flatMap_append, List.flatMap_singleton]
    rfl
  obtain ⟨hgap, hsmall⟩ := hfits _ hbuffer
  obtain ⟨r, after, hruns⟩ := List.exists_cons_of_ne_nil (List.append_ne_nil_of_right_ne_nil runs (List.cons_ne_nil last []))
  rw [hruns] at hbuffer hdecode hgap hsmall
  obtain ⟨it', hnext, hbit, -, hin⟩ :=
    @nextWord_inRun ⟨self.buffer, 0, 0, 0, 0, 0, false⟩ after r hbuffer hmemory.buffer hgap hsmall
  refine ⟨(rlwGetRunningLen r.marker).toNat, r.literals, after, ?_, ?_⟩
  · rw [rlwitInit]
    simp only [hnext, Option.getD_some]
    exact hin
  · rw [rlwitInit]
    simp only [hnext, Option.getD_some]
    rw [leftOf, hbit, ← hdecode, decode_cons, Run.words, List.append_assoc]

lemma dischargeRest_eq (hI : RlwStands rlwI restI) (hout : Yields out words) (hbound : restI.length < 2 ^ 64 - 1)
    (hfuel : restI.length < fuel) :
    ∃ it' out' index, rlwitDischarge fuel rlwI out (2 ^ 64 - 1) 0 false = some (it', out', index) ∧
      Yields out' (words ++ restI) := by
  obtain ⟨n, hencodes⟩ := hout
  obtain ⟨it', out', hresult, -, hout'⟩ := @rlwitDischarge_eq _ _ _ _ _ (2 ^ 64 - 1) 0 fuel false hI hencodes
    (Nat.zero_le _) (by omega) (by omega) (by omega)
  have hall : min (2 ^ 64 - 1 - 0) restI.length = restI.length := by omega
  have hcopy : restI.map (negateWord false) = restI := List.map_id _
  rw [hall, List.take_length, hcopy] at hout'
  exact ⟨it', out', _, hresult, _, hout'⟩

lemma ewahXor_yields {ewahI ewahJ : EwahBitmap} {wordsI wordsJ : List Eword} (hI : RlwStands (rlwitInit ewahI) wordsI)
    (hJ : RlwStands (rlwitInit ewahJ) wordsJ) (hbound : wordsI.length + wordsJ.length < 2 ^ 64 - 1)
    (hfuel : wordsI.length + wordsJ.length + 1 < fuel) :
    ∃ out', ewahXor fuel ewahI ewahJ ewahNew = some out' ∧
      Encodes out' (max ewahI.bitSize ewahJ.bitSize) (xorWords wordsI wordsJ) ∧
      out'.bitSize = max ewahI.bitSize ewahJ.bitSize := by
  obtain ⟨rlwI, rlwJ, out₁, restI, restJ, words₁, hloop, hI', hJ', hyields, htotal, hle, hend⟩ :=
    xorLoop_eq hI hJ ⟨0, stores_ewahNew.encodes⟩ (by omega) hfuel
  rw [List.nil_append] at htotal
  rw [ewahXor, hloop, Option.bind_some]
  simp only []
  by_cases hleft : rlwitWordSize rlwI > 0
  · obtain rfl : restJ = [] := hend.resolve_left (hI'.wordSize.mp hleft)
    rw [xorWords_nil] at htotal
    obtain ⟨it', out', index, hresult, n, hout'⟩ := dischargeRest_eq hI' hyields (show restI.length < 2 ^ 64 - 1 by omega)
      (show restI.length < fuel by omega)
    rw [htotal] at hout'
    rw [if_pos hleft, hresult, Option.map_some]
    exact ⟨_, rfl, hout'.withBitSize _, rfl⟩
  · obtain rfl : restI = [] := by
      by_contra hne
      exact hleft (hI'.wordSize.mpr hne)
    rw [xorWords] at htotal
    obtain ⟨it', out', index, hresult, n, hout'⟩ := dischargeRest_eq hJ' hyields (show restJ.length < 2 ^ 64 - 1 by omega)
      (show restJ.length < fuel by omega)
    rw [htotal] at hout'
    rw [if_neg hleft, hresult, Option.map_some]
    exact ⟨_, rfl, hout'.withBitSize _, rfl⟩

lemma length_le_of_inMemory {self : EwahBitmap} (hmemory : InMemory self)
    (hcount : divRoundUp self.bitSize bitsInEword = words.length) : words.length ≤ 2 ^ 58 := by
  have hsize := hmemory.bitSize
  rw [divRoundUp, bitsInEword] at hcount
  omega

lemma fitsInt_ewahNew : FitsInt ewahNew := by
  intro runs hruns
  cases runs with
  | nil => cases hruns
  | cons r runs =>
    rw [encode_cons] at hruns
    obtain ⟨hmarker, hrest⟩ := List.cons.inj hruns
    obtain ⟨hliterals, hafter⟩ := List.append_eq_nil_iff.mp hrest.symm
    have hnil : runs = [] := by
      cases runs with
      | nil => rfl
      | cons s runs => rw [encode_cons] at hafter; cases hafter
    subst hnil
    refine ⟨⟨fun _ => rfl, trivial⟩, fun s hs => ?_⟩
    rw [List.mem_singleton.mp hs, Run.Small, ← hmarker, hliterals]
    decide

def longRun : EwahBitmap := ⟨[0x100000000#64], 2 ^ 37, 0⟩

def oneLiteral : EwahBitmap := ⟨[0x200000000#64, 1], 64, 0⟩

lemma xorLoop_longRun (fuel : Nat) :
    xorLoop fuel ⟨[0x100000000#64], 1, 1, 0, -2 ^ 31, 0, false⟩ ⟨[0x200000000#64, 1], 2, 1, 1, 0, 0, false⟩ ewahNew =
      none := by
  induction fuel with
  | zero => rfl
  | succ fuel ih =>
    cases fuel with
    | zero => rfl
    | succ fuel =>
      rw [xorLoop, if_pos (by decide), xorRuns, if_neg (by decide)]
      exact ih

end GitCore.Ewah
