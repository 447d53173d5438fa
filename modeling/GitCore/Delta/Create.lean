import GitCore.Delta.Index

/-!
# The delta encoder

`create_delta` of `diff-delta.c` and `diff_delta` of `delta.h`. The output buffer is the
list of the bytes before `outpos`; a slot that is reserved and filled later holds zero.
-/

namespace GitCore.Delta

/-- Locals of `create_delta` between two iterations of its main loop. -/
structure DeltaState where
  out : List UInt8
  outsize : Nat
  data : Nat
  val : UInt32
  inscnt : Int
  moff : Nat
  msize : Nat

/-- The maximum size for any opcode sequence, including the initial header
plus Rabin window plus biggest copy. -/
def MAX_OP_SIZE : Nat := 5 + 5 + 1 + RABIN_WINDOW + 7

/-- `while (l >= 0x80) { out[outpos++] = l | 0x80; l >>= 7; } out[outpos++] = l;` -/
def putDeltaHdrSize (l : Nat) : List UInt8 :=
  if l < 0x80 then [UInt8.ofNat l] else UInt8.ofNat (l ||| 0x80) :: putDeltaHdrSize (l >>> 7)
termination_by l
decreasing_by simp only [Nat.shiftRight_eq_div_pow]; omega

/-- `while (ref_size-- && *src++ == *ref) ref++;` gives the number of equal bytes. -/
def matchLength (src trg : List UInt8) (ref data : Nat) : Nat → Nat
  | 0 => 0
  | refSize + 1 =>
    if trg.getD data 0 = src.getD ref 0 then matchLength src trg (ref + 1) (data + 1) refSize + 1
    else 0

/-- The loop over a hash bucket, from the best match `(msize, moff)` so far. -/
def findMatch (src trg : List UInt8) (data : Nat) (val : UInt32) :
    List IndexEntry → Nat × Nat → Nat × Nat
  | [], best => best
  | entry :: entries, (msize, moff) =>
    if entry.val ≠ val then findMatch src trg data val entries (msize, moff)
    else
      let refSize := min (src.length - entry.ptr) (trg.length - data)
      if refSize ≤ msize then (msize, moff)
      else
        let len := matchLength src trg entry.ptr data refSize
        if msize < len then
          -- this is our best match so far
          if 4096 ≤ len then (len, entry.ptr)
          else findMatch src trg data val entries (len, entry.ptr)
        else findMatch src trg data val entries (msize, moff)

/-- `if (msize < 4096) { ... }` at the head of the main loop. -/
def searchMatch (index : DeltaIndex) (trg : List UInt8) (st : DeltaState) : DeltaState :=
  if st.msize < 4096 then
    let val := rabinPush (rabinDrop st.val (trg.getD (st.data - RABIN_WINDOW) 0))
      (trg.getD st.data 0)
    let best := findMatch index.srcBuf trg st.data val (index.bucket val) (st.msize, st.moff)
    { st with val := val, msize := best.1, moff := best.2 }
  else st

/-- `out[outpos - inscnt - 1] = inscnt; inscnt = 0;` -/
def putInscnt (st : DeltaState) : DeltaState :=
  { st with
    out := st.out.set ((st.out.length : Int) - st.inscnt - 1).toNat (UInt8.ofInt st.inscnt)
    inscnt := 0 }

def putLiteral (trg : List UInt8) (st : DeltaState) : DeltaState :=
  let out := if st.inscnt = 0 then st.out ++ [0] else st.out
  let st := { st with
    out := out ++ [trg.getD st.data 0], data := st.data + 1, inscnt := st.inscnt + 1, msize := 0 }
  if st.inscnt = 0x7f then putInscnt st else st

/-- The loop that extends a match backwards over pending literals; `moff` counts down. -/
def matchBack (src trg : List UInt8) : Nat → DeltaState → DeltaState
  | 0, st => st
  | moff + 1, st =>
    if src.getD moff 0 = trg.getD (st.data - 1) 0 then
      let st := { st with
        msize := st.msize + 1, moff := moff, data := st.data - 1, out := st.out.dropLast,
        inscnt := st.inscnt - 1 }
      if st.inscnt ≠ 0 then matchBack src trg moff st
      else { st with out := st.out.dropLast, inscnt := -1 } -- remove count slot
    else st

/-- One `if (value & mask) { out[outpos++] = value >> shift; i |= bit; }` of a copy op. -/
def putCpParam (value shift : Nat) (bit : UInt8) (op : UInt8 × List UInt8) : UInt8 × List UInt8 :=
  if value &&& (0xff <<< shift) ≠ 0 then
    (op.1 ||| bit, op.2 ++ [UInt8.ofNat (value >>> shift)])
  else op

def copyOp (moff msize : Nat) : List UInt8 :=
  let op := putCpParam moff 0 0x01 (0x80, [])
  let op := putCpParam moff 8 0x02 op
  let op := putCpParam moff 16 0x04 op
  let op := putCpParam moff 24 0x08 op
  let op := putCpParam msize 0 0x10 op
  let op := putCpParam msize 8 0x20 op
  op.1 :: op.2

def putCopy (src trg : List UInt8) (st : DeltaState) : DeltaState :=
  let st := if st.inscnt ≠ 0 then putInscnt (matchBack src trg st.moff st) else st
  -- a copy op is currently limited to 64KB
  let left := if st.msize < 0x10000 then 0 else st.msize - 0x10000
  let msize := st.msize - left
  let moff := st.moff + msize
  let st := { st with
    out := st.out ++ copyOp st.moff msize
    data := st.data + msize
    moff := moff
    msize := if moff > 0xffffffff then 0 else left }
  if st.msize < 4096 then { st with val := rabinWindow trg (st.data - RABIN_WINDOW) } else st

@[irreducible] def deltaStep (index : DeltaIndex) (trg : List UInt8) (st : DeltaState) : DeltaState :=
  let st := searchMatch index trg st
  if st.msize < 4 then putLiteral trg st else putCopy index.srcBuf trg st

/-- The size of the output buffer after the check at the end of an iteration, `none` for
the early `break` of a delta that is too large. -/
@[irreducible] def growOut (maxSize outsize outpos : Nat) : Option Nat :=
  if outpos ≥ outsize - MAX_OP_SIZE then
    let outsize := outsize * 3 / 2
    let outsize := if maxSize ≠ 0 ∧ outsize ≥ maxSize then maxSize + MAX_OP_SIZE + 1 else outsize
    if maxSize ≠ 0 ∧ outpos > maxSize then none else some outsize
  else some outsize

/-- The main loop; `none` only where the fuel runs out. -/
def deltaLoop (index : DeltaIndex) (trg : List UInt8) (maxSize : Nat) :
    Nat → DeltaState → Option DeltaState
  | 0, _ => none
  | fuel + 1, st =>
    if st.data < trg.length then
      let st := deltaStep index trg st
      match growOut maxSize st.outsize st.out.length with
      | none => some st
      | some outsize => deltaLoop index trg maxSize fuel { st with outsize := outsize }
    else some st

def deltaStart (index : DeltaIndex) (trg : List UInt8) (maxSize : Nat) : DeltaState :=
  { out := putDeltaHdrSize index.srcBuf.length ++ putDeltaHdrSize trg.length ++
      0 :: trg.take RABIN_WINDOW
    outsize := if maxSize ≠ 0 ∧ 8192 ≥ maxSize then maxSize + MAX_OP_SIZE + 1 else 8192
    data := min RABIN_WINDOW trg.length
    val := rabinWindow trg 0
    inscnt := (min RABIN_WINDOW trg.length : Nat)
    moff := 0
    msize := 0 }

def createDelta (index : DeltaIndex) (trg : List UInt8) (maxSize : Nat) : Option (List UInt8) :=
  if trg.length = 0 then none
  else do
    let st ← deltaLoop index trg maxSize (trg.length + 1) (deltaStart index trg maxSize)
    let st := if st.inscnt ≠ 0 then putInscnt st else st
    if maxSize ≠ 0 ∧ st.out.length > maxSize then none else some st.out

def diffDelta (src trg : List UInt8) (maxSize : Nat) : Option (List UInt8) := do
  let index ← createDeltaIndex src
  createDelta index trg maxSize

end GitCore.Delta
