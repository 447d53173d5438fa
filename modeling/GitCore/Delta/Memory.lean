import GitCore.Delta.Patch
import GitCore.Lib.Traced

/-!
# The delta decoder and its memory

`patch_delta` again, now with the indices it reads from and writes to. Nothing in the functions below
keeps an index inside a buffer except the checks of the source: a read behind the end of a buffer
gives what `Machine` says.
-/

namespace GitCore.Delta.Memory

/-- What one step does to memory. `alloc` is the buffer of the result, with the size that was
announced. -/
inductive Access
  | read (index : Nat)
  | alloc (size : Nat)
  | copySource (dst offset len : Nat)
  | copyDelta (dst offset len : Nat)
deriving DecidableEq, Repr

/-- What the C language and the system leave open: the bytes behind a buffer, the value of a shift by
the width of `size_t` or more, and the sizes for which there is memory. -/
structure Machine where
  beyond : List UInt8 → Nat → UInt8
  shifted : Nat → Nat → UInt64
  available : Nat → Bool

abbrev Run (α : Type) := Traced Access PatchError α

def Machine.bytes (m : Machine) (buf : List UInt8) (offset len : Nat) : List UInt8 :=
  (List.range' offset len).map fun index => buf.getD index (m.beyond buf index)

section Decoder

variable (m : Machine) (src delta : List UInt8)

/-- `*data++` of the delta. -/
def readByte (data : Nat) : Run UInt8 :=
  .emit (.read data) (delta.getD data (m.beyond delta data))

def stLeftShift (a shift : Nat) : Run Nat :=
  if shift < 64 then
    if a > (2 ^ 64 - 1) >>> shift then .fail .die else pure (a <<< shift)
  else pure (m.shifted a shift).toNat

/-- Loop of `get_delta_hdr_size` with its locals; the result is `size` and the new `data`. -/
def getDeltaHdrSizeAux (data i size : Nat) : Run (Nat × Nat) := do
  let cmd ← readByte m delta data
  let part ← stLeftShift m (cmd.toNat &&& 0x7f) i
  if _h : cmd.toNat &&& 0x80 ≠ 0 ∧ data + 1 < delta.length then
    getDeltaHdrSizeAux (data + 1) (i + 7) (size ||| part)
  else pure (size ||| part, data + 1)
termination_by delta.length - data

def getDeltaHdrSize (data : Nat) : Run (Nat × Nat) :=
  getDeltaHdrSizeAux m delta data 0 0

def xmallocz (size : Nat) : Run Unit :=
  if size + 1 ≥ 2 ^ 64 ∨ ¬m.available (size + 1) then .fail .die else .emit (.alloc size) ()

/-- `PARSE_CP_PARAM(bit, var, shift)` for `var` and `data`. -/
def parseCpParam (cmd bit : UInt8) (shift : Nat) (p : Nat × Nat) : Run (Nat × Nat) :=
  if cmd &&& bit ≠ 0 then
    if p.2 ≥ delta.length then .fail .goneWild
    else do
      let b ← readByte m delta p.2
      pure (p.1 ||| b.toNat <<< shift, p.2 + 1)
  else pure p

def parseCpParams (cmd : UInt8) : List (UInt8 × Nat) → Nat × Nat → Run (Nat × Nat)
  | [], p => pure p
  | param :: params, p => do
    let q ← parseCpParam m delta cmd param.1 param.2 p
    parseCpParams cmd params q

/-- Locals of the main loop: `data`, `size` and what was written in front of `out`. -/
structure PatchState where
  data : Nat
  size : Nat
  out : List UInt8

/-- `if (cp_size == 0) cp_size = 0x10000`. -/
def copySize (cpSize : Nat) : Nat :=
  if cpSize = 0 then 0x10000 else cpSize

def copyOp (cmd : UInt8) (s : PatchState) : Run PatchState := do
  let off ← parseCpParams m delta cmd [(0x01, 0), (0x02, 8), (0x04, 16), (0x08, 24)] (0, s.data + 1)
  let parsed ← parseCpParams m delta cmd [(0x10, 0), (0x20, 8), (0x40, 16)] (0, off.2)
  let cpSize := copySize parsed.1
  if off.1 + cpSize ≥ 2 ^ 64 ∨ off.1 + cpSize > src.length ∨ cpSize > s.size then .fail .goneWild
  else .emit (.copySource s.out.length off.1 cpSize) <|
    PatchState.mk parsed.2 (s.size - cpSize) (s.out ++ m.bytes src off.1 cpSize)

def insertOp (cmd : UInt8) (s : PatchState) : Run PatchState :=
  if cmd.toNat > s.size ∨ cmd.toNat > delta.length - (s.data + 1) then .fail .goneWild
  else .emit (.copyDelta s.out.length (s.data + 1) cmd.toNat) <|
    PatchState.mk (s.data + 1 + cmd.toNat) (s.size - cmd.toNat) (s.out ++ m.bytes delta (s.data + 1) cmd.toNat)

/-- One round of `while (data < top)`. -/
def patchStep (s : PatchState) : Run PatchState := do
  let cmd ← readByte m delta s.data
  if cmd &&& 0x80 ≠ 0 then copyOp m src delta cmd s
  else if cmd ≠ 0 then insertOp m delta cmd s
  else .fail .opcodeZero

end Decoder

variable {m : Machine} {src delta : List UInt8}

lemma readByte_bind {α : Type} (data : Nat) (k : UInt8 → Run α) :
    (readByte m delta data >>= k).result = (k (delta.getD data (m.beyond delta data))).result :=
  rfl

lemma parseCpParam_data {cmd bit : UInt8} {shift : Nat} {p q : Nat × Nat}
    (h : (parseCpParam m delta cmd bit shift p).result = .ok q) : p.2 ≤ q.2 := by
  unfold parseCpParam at h
  split at h
  · split at h
    · cases h
    · rw [readByte_bind] at h
      rw [← Except.ok.inj h]
      exact Nat.le_succ p.2
  · rw [← Except.ok.inj h]

lemma parseCpParams_data {cmd : UInt8} {params : List (UInt8 × Nat)} {p q : Nat × Nat}
    (h : (parseCpParams m delta cmd params p).result = .ok q) : p.2 ≤ q.2 := by
  induction params generalizing p with
  | nil => rw [← Except.ok.inj h]
  | cons param params ih =>
    rw [parseCpParams] at h
    cases hparam : (parseCpParam m delta cmd param.1 param.2 p).result with
    | error e =>
      rw [Traced.bind_error hparam] at h
      cases h
    | ok p' =>
      rw [Traced.bind_result_ok hparam] at h
      exact (parseCpParam_data hparam).trans (ih h)

lemma copyOp_data {cmd : UInt8} {s s' : PatchState} (h : (copyOp m src delta cmd s).result = .ok s') :
    s.data < s'.data := by
  rw [copyOp] at h
  cases hoff : (parseCpParams m delta cmd [(0x01, 0), (0x02, 8), (0x04, 16), (0x08, 24)] (0, s.data + 1)).result with
  | error e =>
    rw [Traced.bind_error hoff] at h
    cases h
  | ok off =>
    rw [Traced.bind_result_ok hoff] at h
    cases hsize : (parseCpParams m delta cmd [(0x10, 0), (0x20, 8), (0x40, 16)] (0, off.2)).result with
    | error e =>
      rw [Traced.bind_error hsize] at h
      cases h
    | ok parsed =>
      rw [Traced.bind_result_ok hsize] at h
      have hle : s.data + 1 ≤ off.2 := parseCpParams_data hoff
      have hle' : (0, off.2).2 ≤ parsed.2 := parseCpParams_data hsize
      dsimp only at h
      split at h
      · cases h
      · cases h
        exact hle.trans hle'

lemma patchStep_data {s s' : PatchState} (h : (patchStep m src delta s).result = .ok s') : s.data < s'.data := by
  rw [patchStep, readByte_bind] at h
  split at h
  · exact copyOp_data h
  split at h
  · rw [insertOp] at h
    split at h
    · cases h
    · cases h
      dsimp only
      omega
  · cases h

section Decoder

variable (m : Machine) (src delta : List UInt8)

def patchLoop (s : PatchState) : Run PatchState :=
  Traced.whileDown (fun s => delta.length - s.data) (fun s => s.data < delta.length) (patchStep m src delta)
    (fun s s' hcond hstep => by
      have hlt := of_decide_eq_true hcond
      have hdata := patchStep_data hstep
      omega) s

def patchDelta : Run (List UInt8) :=
  if delta.length < DELTA_SIZE_MIN then .fail .tooShort
  else do
    let source ← getDeltaHdrSize m delta 0
    if source.1 ≠ src.length then .fail .sizeMismatch
    else
      let target ← getDeltaHdrSize m delta source.2
      xmallocz m target.1
      let s ← patchLoop m src delta { data := target.2, size := target.1, out := [] }
      if s.data ≠ delta.length ∨ s.size ≠ 0 then .fail .goneWild else pure s.out

end Decoder

end GitCore.Delta.Memory
