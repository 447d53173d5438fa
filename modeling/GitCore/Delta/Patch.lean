import Mathlib.Tactic

/-!
# The delta decoder

`get_delta_hdr_size` of `delta.h` and `patch_delta` of `patch-delta.c`. The pointer into the
delta is the list of the bytes from it up to `top`.
-/

namespace GitCore.Delta

/-- Why `patch_delta` returns no buffer. `overread` and `undefinedShift` are reads and shifts
the C code leaves undefined; `die` is the overflow check of `st_left_shift`. -/
inductive PatchError
  | tooShort
  | sizeMismatch
  | goneWild
  | opcodeZero
  | overread
  | undefinedShift
  | die
deriving DecidableEq, Repr

def DELTA_SIZE_MIN : Nat := 4

/-- `a << shift` of `size_t`, checked by `unsigned_left_shift_overflows`. -/
def stLeftShift (a shift : Nat) : Except PatchError Nat :=
  if shift < 64 then
    if a > (2 ^ 64 - 1) >>> shift then .error .die else .ok (a <<< shift)
  else .error .undefinedShift

def getDeltaHdrSizeAux : List UInt8 → Nat → Nat → Except PatchError (Nat × List UInt8)
  | [], _, _ => .error .overread
  | cmd :: data, i, size => do
    let part ← stLeftShift (cmd.toNat &&& 0x7f) i
    let size := size ||| part
    if cmd.toNat &&& 0x80 ≠ 0 ∧ data ≠ [] then getDeltaHdrSizeAux data (i + 7) size
    else return (size, data)

def getDeltaHdrSize (data : List UInt8) : Except PatchError (Nat × List UInt8) :=
  getDeltaHdrSizeAux data 0 0

def parseCpParam (cmd bit : UInt8) (shift : Nat) (p : Nat × List UInt8) :
    Except PatchError (Nat × List UInt8) :=
  if cmd &&& bit ≠ 0 then
    match p.2 with
    | [] => .error .goneWild
    | b :: data => .ok (p.1 ||| b.toNat <<< shift, data)
  else .ok p

def parseCpParams (cmd : UInt8) :
    List (UInt8 × Nat) → Nat × List UInt8 → Except PatchError (Nat × List UInt8)
  | [], p => .ok p
  | (bit, shift) :: params, p => do
    let p ← parseCpParam cmd bit shift p
    parseCpParams cmd params p

def parseCopy (cmd : UInt8) (data : List UInt8) : Except PatchError (Nat × Nat × List UInt8) := do
  let (off, data) ← parseCpParams cmd [(0x01, 0), (0x02, 8), (0x04, 16), (0x08, 24)] (0, data)
  let (size, data) ← parseCpParams cmd [(0x10, 0), (0x20, 8), (0x40, 16)] (0, data)
  return (off, if size = 0 then 0x10000 else size, data)

lemma parseCpParam_length {cmd bit : UInt8} {shift : Nat} {p q : Nat × List UInt8}
    (h : parseCpParam cmd bit shift p = .ok q) : q.2.length ≤ p.2.length := by
  unfold parseCpParam at h
  split at h
  · split at h
    · cases h
    · next b data hp =>
      cases h
      simp [hp]
  · cases h
    exact le_rfl

lemma parseCpParams_length {cmd : UInt8} {params : List (UInt8 × Nat)} {p q : Nat × List UInt8}
    (h : parseCpParams cmd params p = .ok q) : q.2.length ≤ p.2.length := by
  induction params generalizing p with
  | nil =>
    cases h
    exact le_rfl
  | cons param params ih =>
    simp only [parseCpParams, bind, Except.bind] at h
    split at h
    · cases h
    · next p' hp => exact (ih h).trans (parseCpParam_length hp)

lemma parseCopy_length {cmd : UInt8} {data rest : List UInt8} {off size : Nat}
    (h : parseCopy cmd data = .ok (off, size, rest)) : rest.length ≤ data.length := by
  simp only [parseCopy, bind, Except.bind, pure, Except.pure] at h
  split at h
  · cases h
  · next p hp =>
    split at h
    · cases h
    · next q hq =>
      cases h
      exact (parseCpParams_length hq).trans (parseCpParams_length hp)

/-- `while (data < top) { ... }`; `size` is what is left to produce and `out` what there is. -/
def patchLoop (src : List UInt8) : List UInt8 → Nat → List UInt8 → Except PatchError (List UInt8)
  | [], size, out => if size ≠ 0 then .error .goneWild else .ok out
  | cmd :: data, size, out =>
    if cmd &&& 0x80 ≠ 0 then
      match _h : parseCopy cmd data with
      | .error e => .error e
      | .ok (off, cpSize, data) =>
        if off + cpSize > src.length ∨ cpSize > size then .error .goneWild
        else patchLoop src data (size - cpSize) (out ++ (src.drop off).take cpSize)
    else if cmd ≠ 0 then
      if cmd.toNat > size ∨ cmd.toNat > data.length then .error .goneWild
      else patchLoop src (data.drop cmd.toNat) (size - cmd.toNat) (out ++ data.take cmd.toNat)
    else .error .opcodeZero
termination_by data => data.length
decreasing_by
  · have := parseCopy_length _h
    simp only [List.length_cons]
    omega
  · simp only [List.length_cons, List.length_drop]
    omega

def patchDelta (src delta : List UInt8) : Except PatchError (List UInt8) := do
  if delta.length < DELTA_SIZE_MIN then .error .tooShort
  else
    let (size, data) ← getDeltaHdrSize delta
    if size ≠ src.length then .error .sizeMismatch
    else
      let (size, data) ← getDeltaHdrSize data
      patchLoop src data size []

end GitCore.Delta
