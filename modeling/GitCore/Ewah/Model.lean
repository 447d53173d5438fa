import Mathlib.Data.List.Flatten
import Mathlib.Tactic

/-!
# Compressed bitmaps

`ewah/ewah_bitmap.c`, `ewah/ewok_rlw.h` and the readers of `ewah/bitmap.c`. A run-length word holds
the bit of a run, the length of the run and the number of literal words that follow it.
-/

namespace GitCore.Ewah

abbrev Eword := BitVec 64

def bitsInEword : Nat := 64

def rlwRunningBits : Nat := 32

def rlwLiteralBits : Nat := 31

def rlwLargestRunningCount : Eword := ((1 : Eword) <<< rlwRunningBits) - 1

def rlwLargestLiteralCount : Eword := ((1 : Eword) <<< rlwLiteralBits) - 1

def rlwLargestRunningCountShift : Eword := rlwLargestRunningCount <<< 1

def rlwRunningLenPlusBit : Eword := ((1 : Eword) <<< (rlwRunningBits + 1)) - 1

def rlwGetRunBit (word : Eword) : Bool := word &&& 1 ≠ 0

def rlwSetRunBit (word : Eword) (b : Bool) : Eword := if b then word ||| 1 else word &&& ~~~1

def rlwSetRunningLen (word l : Eword) : Eword :=
  (word ||| rlwLargestRunningCountShift) &&& (l <<< 1 ||| ~~~rlwLargestRunningCountShift)

def rlwGetRunningLen (word : Eword) : Eword := word >>> 1 &&& rlwLargestRunningCount

def rlwGetLiteralWords (word : Eword) : Eword := word >>> (1 + rlwRunningBits)

def rlwSetLiteralWords (word l : Eword) : Eword :=
  (word ||| ~~~rlwRunningLenPlusBit) &&& (l <<< (rlwRunningBits + 1) ||| rlwRunningLenPlusBit)

def rlwSize (word : Eword) : Eword := rlwGetRunningLen word + rlwGetLiteralWords word

/-- `rlw` is the index of the current run-length word in the buffer. -/
structure EwahBitmap where
  buffer : List Eword
  bitSize : Nat
  rlw : Nat
deriving DecidableEq

def ewahNew : EwahBitmap := ⟨[0], 0, 0⟩

/-- `*self->rlw`. -/
def EwahBitmap.marker (self : EwahBitmap) : Eword := self.buffer.getD self.rlw 0

/-- An assignment to `*self->rlw`. -/
def EwahBitmap.setMarker (self : EwahBitmap) (word : Eword) : EwahBitmap :=
  { self with buffer := self.buffer.set self.rlw word }

def bufferPush (self : EwahBitmap) (value : Eword) : EwahBitmap :=
  { self with buffer := self.buffer ++ [value] }

def bufferPushRlw (self : EwahBitmap) (value : Eword) : EwahBitmap :=
  let self := bufferPush self value
  { self with rlw := self.buffer.length - 1 }

/-- The loop of `add_empty_words`: full runs are pushed while there are enough words. -/
def addFullRuns (self : EwahBitmap) (v : Bool) (number added : Nat) : EwahBitmap × Nat × Nat :=
  if h : rlwLargestRunningCount.toNat ≤ number then
    let self := bufferPushRlw self 0
    let self := if v then self.setMarker (rlwSetRunBit self.marker v) else self
    let self := self.setMarker (rlwSetRunningLen self.marker rlwLargestRunningCount)
    addFullRuns self v (number - rlwLargestRunningCount.toNat) (added + 1)
  else (self, number, added)
termination_by number
decreasing_by
  have hpos : 0 < rlwLargestRunningCount.toNat := by decide
  omega

/-- A marker without words takes the bit of the run, any other one that does not fit is left. -/
def openRun (self : EwahBitmap) (v : Bool) : EwahBitmap × Nat :=
  if rlwGetRunBit self.marker ≠ v ∧ rlwSize self.marker = 0 then
    (self.setMarker (rlwSetRunBit self.marker v), 0)
  else if rlwGetLiteralWords self.marker ≠ 0 ∨ rlwGetRunBit self.marker ≠ v then
    let self := bufferPushRlw self 0
    (if v then self.setMarker (rlwSetRunBit self.marker v) else self, 1)
  else (self, 0)

def addEmptyWords (self : EwahBitmap) (v : Bool) (number : Nat) : EwahBitmap × Nat :=
  let (self, added) := openRun self v
  let runlen := rlwGetRunningLen self.marker
  let canAdd := min number (rlwLargestRunningCount - runlen).toNat
  let self := self.setMarker (rlwSetRunningLen self.marker (runlen + BitVec.ofNat 64 canAdd))
  let (self, number, added) := addFullRuns self v (number - canAdd) added
  if number > 0 then
    let self := bufferPushRlw self 0
    let self := if v then self.setMarker (rlwSetRunBit self.marker v) else self
    (self.setMarker (rlwSetRunningLen self.marker (BitVec.ofNat 64 number)), added + 1)
  else (self, added)

def ewahAddEmptyWords (self : EwahBitmap) (v : Bool) (number : Nat) : EwahBitmap × Nat :=
  if number = 0 then (self, 0)
  else addEmptyWords { self with bitSize := self.bitSize + number * bitsInEword } v number

def addLiteral (self : EwahBitmap) (newData : Eword) : EwahBitmap × Nat :=
  let currentNum := rlwGetLiteralWords self.marker
  if currentNum ≥ rlwLargestLiteralCount then
    let self := bufferPushRlw self 0
    let self := self.setMarker (rlwSetLiteralWords self.marker 1)
    (bufferPush self newData, 2)
  else
    let self := self.setMarker (rlwSetLiteralWords self.marker (currentNum + 1))
    (bufferPush self newData, 1)

def addEmptyWord (self : EwahBitmap) (v : Bool) : EwahBitmap × Nat :=
  let noLiteral := rlwGetLiteralWords self.marker = 0
  let runLen := rlwGetRunningLen self.marker
  let self := if noLiteral ∧ runLen = 0 then self.setMarker (rlwSetRunBit self.marker v) else self
  if noLiteral ∧ rlwGetRunBit self.marker = v ∧ runLen < rlwLargestRunningCount then
    (self.setMarker (rlwSetRunningLen self.marker (runLen + 1)), 0)
  else
    let self := bufferPushRlw self 0
    let self := self.setMarker (rlwSetRunBit self.marker v)
    (self.setMarker (rlwSetRunningLen self.marker 1), 1)

def ewahAdd (self : EwahBitmap) (word : Eword) : EwahBitmap × Nat :=
  let self := { self with bitSize := self.bitSize + bitsInEword }
  if word = 0 then addEmptyWord self false
  else if word = ~~~0 then addEmptyWord self true
  else addLiteral self word

def divRoundUp (n d : Nat) : Nat := (n + d - 1) / d

/-- The assertion `i >= self->bit_size` is a condition on the callers. -/
def ewahSet (self : EwahBitmap) (i : Nat) : EwahBitmap :=
  let dist := divRoundUp (i + 1) bitsInEword - divRoundUp self.bitSize bitsInEword
  let bit := (1 : Eword) <<< (i % bitsInEword)
  let self := { self with bitSize := i + 1 }
  if dist > 0 then
    let self := if dist > 1 then (addEmptyWords self false (dist - 1)).1 else self
    (addLiteral self bit).1
  else if rlwGetLiteralWords self.marker = 0 then
    let self := self.setMarker (rlwSetRunningLen self.marker (rlwGetRunningLen self.marker - 1))
    (addLiteral self bit).1
  else
    let last := self.buffer.getLastD 0 ||| bit
    let self := { self with buffer := self.buffer.dropLast ++ [last] }
    if last = ~~~0 then
      let self := { self with buffer := self.buffer.dropLast }
      let self := self.setMarker (rlwSetLiteralWords self.marker (rlwGetLiteralWords self.marker - 1))
      (addEmptyWord self true).1
    else self

def wordBits (word : Eword) : List Nat := (List.range bitsInEword).filter word.getLsbD

/-- The positions that `ewah_each_bit` hands to the callback, from `pointer` on. -/
def eachBitFrom (buffer : List Eword) (pointer pos : Nat) : List Nat :=
  if h : pointer < buffer.length then
    let word := buffer[pointer]
    let len := (rlwGetRunningLen word).toNat * bitsInEword
    let nr := (rlwGetLiteralWords word).toNat
    let run := if rlwGetRunBit word then (List.range len).map (pos + ·) else []
    let literals := (List.range nr).flatMap fun k =>
      (wordBits (buffer.getD (pointer + 1 + k) 0)).map (pos + len + k * bitsInEword + ·)
    run ++ literals ++ eachBitFrom buffer (pointer + 1 + nr) (pos + len + nr * bitsInEword)
  else []
termination_by buffer.length - pointer

def ewahEachBit (self : EwahBitmap) : List Nat := eachBitFrom self.buffer 0 0

structure EwahIterator where
  buffer : List Eword
  pointer : Nat
  compressed : Eword
  literals : Eword
  rl : Eword
  lw : Eword
  b : Bool

def EwahIterator.load (it : EwahIterator) (pointer : Nat) : EwahIterator :=
  let word := it.buffer.getD pointer 0
  { it with
    pointer := pointer
    rl := rlwGetRunningLen word
    lw := rlwGetLiteralWords word
    b := rlwGetRunBit word }

/-- The loop of `read_new_rlw`, with the pointer at a run-length word. -/
def readRlw (it : EwahIterator) : EwahIterator :=
  let it' := it.load it.pointer
  if it'.rl ≠ 0 ∨ it'.lw ≠ 0 then it'
  else if _h : it.pointer < it.buffer.length - 1 then readRlw { it' with pointer := it.pointer + 1 }
  else { it' with pointer := it.buffer.length }
termination_by it.buffer.length - it.pointer
decreasing_by
  simp only [EwahIterator.load]
  omega

def readNewRlw (it : EwahIterator) : EwahIterator := readRlw { it with literals := 0, compressed := 0 }

def ewahIteratorInit (parent : EwahBitmap) : EwahIterator :=
  let it : EwahIterator := ⟨parent.buffer, 0, 0, 0, 0, 0, false⟩
  if it.pointer < it.buffer.length then readNewRlw it else it

def takeWord (it : EwahIterator) : Eword × EwahIterator :=
  if it.compressed < it.rl then
    (if it.b then ~~~0 else 0, { it with compressed := it.compressed + 1 })
  else
    (it.buffer.getD (it.pointer + 1) 0, { it with literals := it.literals + 1, pointer := it.pointer + 1 })

def ewahIteratorNext (it : EwahIterator) : Option (Eword × EwahIterator) :=
  if it.pointer ≥ it.buffer.length then none
  else
    let (next, it) := takeWord it
    if it.compressed = it.rl ∧ it.literals = it.lw then
      let it := { it with pointer := it.pointer + 1 }
      some (next, if it.pointer < it.buffer.length then readNewRlw it else it)
    else some (next, it)

lemma buffer_readRlw (it : EwahIterator) : (readRlw it).buffer = it.buffer := by
  fun_induction readRlw it with
  | case1 it it' h => rfl
  | case2 it it' h _h ih => exact ih
  | case3 it it' h _h => rfl

lemma le_pointer_readRlw (it : EwahIterator) (h : it.pointer ≤ it.buffer.length) : it.pointer ≤ (readRlw it).pointer := by
  fun_induction readRlw it with
  | case1 it it' _ => exact Nat.le_refl it.pointer
  | case2 it it' _ hlt ih =>
    refine Nat.le_trans (Nat.le_succ it.pointer) (ih ?_)
    change it.pointer + 1 ≤ it.buffer.length
    omega
  | case3 it it' _ _ => exact h

lemma ewahIteratorNext_lt {it it' : EwahIterator} {next : Eword} (h : ewahIteratorNext it = some (next, it')) :
    Prod.Lex (· < ·) (· < ·) (it'.buffer.length - it'.pointer, it'.rl.toNat - it'.compressed.toNat)
      (it.buffer.length - it.pointer, it.rl.toNat - it.compressed.toNat) := by
  unfold ewahIteratorNext at h
  split at h
  · cases h
  · rename_i hpointer
    obtain ⟨htake, hmid⟩ : (takeWord it).2.buffer = it.buffer ∧ (it.pointer < (takeWord it).2.pointer ∨
        (takeWord it).2.pointer = it.pointer ∧ (takeWord it).2.rl = it.rl ∧ it.compressed < it.rl ∧
          (takeWord it).2.compressed = it.compressed + 1) := by
      unfold takeWord
      split
      · rename_i hlt
        exact ⟨rfl, Or.inr ⟨rfl, rfl, hlt, rfl⟩⟩
      · exact ⟨rfl, Or.inl (Nat.lt_succ_self _)⟩
    rcases hw : takeWord it with ⟨word, mid⟩
    rw [hw] at h htake hmid
    dsimp only at h htake hmid
    split at h
    · obtain ⟨-, rfl⟩ : _ = next ∧ _ = it' := by simpa using h
      refine Prod.Lex.left _ _ ?_
      split
      · rename_i hnew
        have hbuffer : (readNewRlw { mid with pointer := mid.pointer + 1 }).buffer = mid.buffer := buffer_readRlw _
        have hle := le_pointer_readRlw { mid with pointer := mid.pointer + 1, literals := 0, compressed := 0 } hnew.le
        change mid.pointer + 1 ≤ (readNewRlw { mid with pointer := mid.pointer + 1 }).pointer at hle
        have hlength : mid.buffer.length = it.buffer.length := by rw [htake]
        rw [hbuffer]
        omega
      · change mid.buffer.length - (mid.pointer + 1) < _
        rw [htake]
        omega
    · obtain ⟨-, rfl⟩ : _ = next ∧ _ = it' := by simpa using h
      rw [htake]
      rcases hmid with hmid | ⟨hsame, hrl, hlt, hcompressed⟩
      · exact Prod.Lex.left _ _ (by omega)
      · rw [hsame, hrl, hcompressed]
        refine Prod.Lex.right _ ?_
        have hlt' : it.compressed.toNat < it.rl.toNat := hlt
        have hbound := it.rl.isLt
        rw [BitVec.toNat_add, Nat.mod_eq_of_lt (by change it.compressed.toNat + 1 < 2 ^ 64; omega)]
        change it.rl.toNat - (it.compressed.toNat + 1) < _
        omega

/-- What `while (ewah_iterator_next(&word, &it))` hands out. -/
def remainingWords (it : EwahIterator) : List Eword :=
  match _h : ewahIteratorNext it with
  | none => []
  | some (next, it') => next :: remainingWords it'
termination_by (it.buffer.length - it.pointer, it.rl.toNat - it.compressed.toNat)
decreasing_by exact ewahIteratorNext_lt _h

def ewahWords (self : EwahBitmap) : List Eword := remainingWords (ewahIteratorInit self)

def ewahBitPopcount64 (x : Eword) : Nat :=
  let x := (x &&& 0x5555555555555555#64) + (x >>> 1 &&& 0x5555555555555555#64)
  let x := (x &&& 0x3333333333333333#64) + (x >>> 2 &&& 0x3333333333333333#64)
  let x := (x &&& 0x0f0f0f0f0f0f0f0f#64) + (x >>> 4 &&& 0x0f0f0f0f0f0f0f0f#64)
  ((x * 0x0101010101010101#64) >>> 56).toNat

def ewahBitmapPopcount (self : EwahBitmap) : Nat :=
  (ewahWords self).foldl (fun count word => count + ewahBitPopcount64 word) 0

structure Bitmap where
  words : List Eword

def ewahToBitmap (ewah : EwahBitmap) : Bitmap :=
  ⟨(ewahWords ewah).foldl (fun words blowup => words ++ [blowup]) []⟩

def bitmapGet (self : Bitmap) (pos : Nat) : Bool :=
  let block := pos / bitsInEword
  block < self.words.length && self.words.getD block 0 &&& (1 : Eword) <<< (pos % bitsInEword) ≠ 0

end GitCore.Ewah
