import GitCore.Lib.Bytes

/-!
# The snapshot of the packed refs

The search and the sort of `packed-backend.c`. The snapshot is the list of the bytes from `start` to
`eof`, a pointer an offset into it, and `none` a read of a byte that is not there.
-/

namespace GitCore.Refs

/-- `'\n'` -/
def lf : UInt8 := 0x0a

def caret : UInt8 := 0x5e

def findStartOfRecord (snapshot : List UInt8) (buf : Nat) : Nat → Option Nat
  | 0 => some 0
  | p + 1 =>
    if p + 1 ≤ buf then some (p + 1)
    else
      match snapshot[p]? with
      | none => none
      | some before =>
        if before ≠ lf then findStartOfRecord snapshot buf p
        else
          match snapshot[p + 1]? with
          | none => none
          | some c => if c = caret then findStartOfRecord snapshot buf p else some (p + 1)

def findEndOfRecord (snapshot : List UInt8) (p last : Nat) : Option Nat :=
  if p + 1 < last then
    match snapshot[p]? with
    | none => none
    | some before =>
      if before ≠ lf then findEndOfRecord snapshot (p + 1) last
      else
        match snapshot[p + 1]? with
        | none => none
        | some c => if c = caret then findEndOfRecord snapshot (p + 1) last else some (p + 1)
  else some (p + 1)
termination_by last - p

def cmpRecordLoop (start : Bool) : List UInt8 → List UInt8 → Option Int
  | [], _ => none
  | c :: r1, refname =>
    if c = lf then some (if refname = [] then 0 else -1)
    else
      match refname with
      | [] => some (if start then 1 else -1)
      | d :: r2 => if c ≠ d then some (if c < d then -1 else 1) else cmpRecordLoop start r1 r2

def cmpRecordToRefname (hexsz : Nat) (snapshot : List UInt8) (record : Nat) (refname : List UInt8) (start : Bool) :
    Option Int :=
  cmpRecordLoop start (snapshot.drop (record + hexsz + 1)) refname

def cmpPackedRefname : List UInt8 → List UInt8 → Option Int
  | [], _ => none
  | _ :: _, [] => none
  | c :: r1, d :: r2 =>
    if c = lf then some (if d = lf then 0 else -1)
    else if c ≠ d then some (if d = lf then 1 else if c < d then -1 else 1)
    else cmpPackedRefname r1 r2

def verifyBufferSafe (hexsz : Nat) (snapshot : List UInt8) : Option Bool :=
  if snapshot = [] then some true
  else
    match findStartOfRecord snapshot 0 (snapshot.length - 1) with
    | none => none
    | some lastLine =>
      match snapshot[snapshot.length - 1]? with
      | none => none
      | some c => some (decide (c = lf ∧ hexsz + 2 ≤ snapshot.length - lastLine))

lemma findStartOfRecord_le {snapshot : List UInt8} {buf p q : Nat} (h : findStartOfRecord snapshot buf p = some q) :
    q ≤ p := by
  induction p with
  | zero => exact (Option.some.inj h).ge
  | succ p ih =>
    rw [findStartOfRecord] at h
    grind

lemma lt_findEndOfRecord {snapshot : List UInt8} {p last q : Nat} (h : findEndOfRecord snapshot p last = some q) :
    p < q := by
  induction hn : last - p using Nat.strong_induction_on generalizing p with
  | _ n ih =>
    rw [findEndOfRecord] at h
    grind

/-- The loop of `find_reference_location_1`: where it ends, and whether the record is found. As `lo` stays
below `hi` or meets it, the loop ends when it is not below. -/
def findReferenceLoop (hexsz : Nat) (snapshot refname : List UInt8) (start : Bool) (lo hi : Nat) :
    Option (Nat × Bool) :=
  if lo < hi then
    let mid := lo + (hi - lo) / 2
    match _hrec : findStartOfRecord snapshot lo mid with
    | none => none
    | some record =>
      match cmpRecordToRefname hexsz snapshot record refname start with
      | none => none
      | some cmp =>
        if cmp < 0 then
          match _hnext : findEndOfRecord snapshot mid hi with
          | none => none
          | some next => findReferenceLoop hexsz snapshot refname start next hi
        else if 0 < cmp then findReferenceLoop hexsz snapshot refname start lo record
        else some (record, true)
  else some (lo, false)
termination_by hi - lo
decreasing_by
  · have := lt_findEndOfRecord _hnext
    omega
  · have := findStartOfRecord_le _hrec
    omega

def findReferenceLocation1 (hexsz : Nat) (snapshot refname : List UInt8) (mustexist start : Bool) :
    Option (Option Nat) :=
  match findReferenceLoop hexsz snapshot refname start 0 snapshot.length with
  | none => none
  | some (record, true) => some (some record)
  | some (lo, false) => some (if mustexist then none else some lo)

def findReferenceLocation (hexsz : Nat) (snapshot refname : List UInt8) (mustexist : Bool) : Option (Option Nat) :=
  findReferenceLocation1 hexsz snapshot refname mustexist true

def findReferenceLocationEnd (hexsz : Nat) (snapshot refname : List UInt8) (mustexist : Bool) : Option (Option Nat) :=
  findReferenceLocation1 hexsz snapshot refname mustexist false

structure SnapshotRecord where
  start : Nat
  len : Nat
  deriving DecidableEq

def cmpPackedRefRecords (hexsz : Nat) (snapshot : List UInt8) (e1 e2 : SnapshotRecord) : Option Int :=
  cmpPackedRefname (snapshot.drop (e1.start + hexsz + 1)) (snapshot.drop (e2.start + hexsz + 1))

def memchr (snapshot : List UInt8) (pos : Nat) (c : UInt8) : Option Nat :=
  if (snapshot.drop pos).idxOf c < (snapshot.drop pos).length then some (pos + (snapshot.drop pos).idxOf c) else none

inductive SortError
  | unterminated
  | invalidLine
  | overread
  deriving DecidableEq

def nextRecord (hexsz : Nat) (snapshot : List UInt8) (pos : Nat) : Except SortError Nat :=
  match memchr snapshot pos lf with
  | none => .error .unterminated
  | some eol =>
    if eol - pos < hexsz + 2 then .error .invalidLine
    else if eol + 1 < snapshot.length ∧ snapshot[eol + 1]? = some caret then
      match memchr snapshot (eol + 1) lf with
      | none => .error .unterminated
      | some eol => .ok (eol + 1)
    else .ok (eol + 1)

lemma le_of_memchr {snapshot : List UInt8} {pos : Nat} {c : UInt8} {i : Nat} (h : memchr snapshot pos c = some i) :
    pos ≤ i := by
  unfold memchr at h
  split_ifs at h
  have := Option.some.inj h
  omega

lemma lt_nextRecord {hexsz : Nat} {snapshot : List UInt8} {pos eol : Nat}
    (h : nextRecord hexsz snapshot pos = .ok eol) : pos < eol := by
  unfold nextRecord at h
  split at h
  · cases h
  · rename_i first hfirst
    have := le_of_memchr hfirst
    split_ifs at h
    · split at h
      · cases h
      · rename_i second hsecond
        have := le_of_memchr hsecond
        obtain rfl := Except.ok.inj h
        omega
    · obtain rfl := Except.ok.inj h
      omega

/-- The loop of `sort_snapshot` over the lines. -/
def snapshotRecords (hexsz : Nat) (snapshot : List UInt8) (pos : Nat) : Except SortError (List SnapshotRecord) :=
  if pos < snapshot.length then
    match _h : nextRecord hexsz snapshot pos with
    | .error e => .error e
    | .ok eol =>
      match snapshotRecords hexsz snapshot eol with
      | .error e => .error e
      | .ok records => .ok (⟨pos, eol - pos⟩ :: records)
  else .ok []
termination_by snapshot.length - pos
decreasing_by
  have := lt_nextRecord _h
  omega

def recordsSorted (hexsz : Nat) (snapshot : List UInt8) : List SnapshotRecord → Option Bool
  | e1 :: e2 :: records =>
    match cmpPackedRefRecords hexsz snapshot e1 e2 with
    | none => none
    | some cmp => if 0 ≤ cmp then some false else recordsSorted hexsz snapshot (e2 :: records)
  | _ => some true

def copyRecords (snapshot : List UInt8) (records : List SnapshotRecord) : List UInt8 :=
  records.flatMap (fun e => (snapshot.drop e.start).take e.len)

/-- `sort_snapshot`. Any two records may be compared by the sort, which is a merge sort. -/
def sortSnapshot (hexsz : Nat) (snapshot : List UInt8) : Except SortError (List UInt8) :=
  match snapshotRecords hexsz snapshot 0 with
  | .error e => .error e
  | .ok records =>
    match recordsSorted hexsz snapshot records with
    | none => .error .overread
    | some true => .ok snapshot
    | some false =>
      if ∃ e1 ∈ records, ∃ e2 ∈ records, cmpPackedRefRecords hexsz snapshot e1 e2 = none then .error .overread
      else
        .ok (copyRecords snapshot
          (records.mergeSort (fun e1 e2 => (cmpPackedRefRecords hexsz snapshot e1 e2).any (fun cmp => cmp ≤ 0))))

end GitCore.Refs
