import GitCore.Refs.Snapshot
import GitCore.Refs.Transaction
import GitCore.Refs.Format
import GitCore.Lib.Regions
import GitCore.Config.Parse
import GitCore.Notes.Tree

/-!
# The iterator over the packed refs

The iterator of `packed-backend.c`, with the regions of the snapshot that it skips. A pointer is an offset into
the snapshot, as in the search. The test for an object in the database and `normalize_path_copy` are functions of
the surroundings.
-/

namespace GitCore.Refs

inductive PeeledTrait
  | none
  | tags
  | fully
  deriving DecidableEq

structure IterSource where
  rawsz : Nat
  snapshot : List UInt8
  peeled : PeeledTrait
  flags : UInt32
  /-- `odb_has_object` -/
  hasObject : ObjectId → Bool
  /-- `normalize_path_copy`, without a value where it fails. -/
  normalizePathCopy : List UInt8 → Option (List UInt8)

def IterSource.hexsz (src : IterSource) : Nat := 2 * src.rawsz

def REFS_FOR_EACH_INCLUDE_BROKEN : UInt32 := 0x01

def REFS_FOR_EACH_PER_WORKTREE_ONLY : UInt32 := 0x02

def REF_ISPACKED : UInt32 := 0x02

def REF_ISBROKEN : UInt32 := 0x04

def REF_BAD_NAME : UInt32 := 0x08

def REF_KNOWS_PEELED : UInt32 := 0x40

structure Reference where
  name : RefName
  oid : ObjectId
  peeledOid : Option ObjectId
  flags : UInt32
  deriving DecidableEq

abbrev JumpListEntry := Region Nat

structure PackedRefIterator where
  seekPrefix : Option RefName
  pos : Nat
  jump : List JumpListEntry
  jumpCur : Nat
  deriving DecidableEq

/-- The reasons for `die` and `BUG`, and a read behind the snapshot. -/
inductive IterError
  | invalidLine (line : List UInt8)
  | unterminatedLine (line : List UInt8)
  | embeddedNul (name : RefName)
  | dangerousName (name : RefName)
  | precedingPrefix
  | overread
  deriving DecidableEq

/-- `get_oid_hex_algop`; the rest of the hash is cleared. -/
def getOidHex (rawsz : Nat) (hex : List UInt8) : Option ObjectId :=
  (Notes.hexToBytes rawsz hex).map fun hash => ObjectId.mk (hash ++ List.replicate (32 - rawsz) 0)

def refsDir : RefName := text "refs/"

def refnameIsSafe (src : IterSource) (refname : RefName) : Bool :=
  if refsDir <+: refname then
    let rest := refname.drop refsDir.length
    if rest = [] ∨ rest.head? = some Refname.slash ∨ rest.getLast? = some Refname.slash then false
    else src.normalizePathCopy rest = some rest
  else refname ≠ [] ∧ refname.all (fun c => (0x41 ≤ c ∧ c ≤ 0x5a) ∨ c = 0x5f)

def lineFlags (src : IterSource) (name : RefName) (bad : Bool) : UInt32 :=
  let flags := if bad then REF_ISPACKED ||| (REF_BAD_NAME ||| REF_ISBROKEN) else REF_ISPACKED
  if src.peeled = .fully ∨ (src.peeled = .tags ∧ text "refs/tags/" <+: name) then flags ||| REF_KNOWS_PEELED else flags

/-- The part of `next_record` behind the line of a reference, which ends at `eol`. -/
def readPeeledLine (src : IterSource) (ref : Reference) (eol : Nat) : Except IterError (Reference × Nat) :=
  if eol + 1 < src.snapshot.length ∧ src.snapshot[eol + 1]? = some caret then
    let p := src.snapshot.drop (eol + 2)
    match getOidHex src.rawsz p, p[src.hexsz]? with
    | some peeled, some c =>
      if c ≠ lf then .error (.invalidLine (src.snapshot.drop (eol + 1)))
      else if ref.flags &&& REF_ISBROKEN ≠ 0 then
        .ok ({ ref with flags := ref.flags &&& ~~~REF_KNOWS_PEELED }, eol + 2 + src.hexsz + 1)
      else .ok ({ ref with peeledOid := some peeled, flags := ref.flags ||| REF_KNOWS_PEELED }, eol + 2 + src.hexsz + 1)
    | _, _ => .error (.invalidLine (src.snapshot.drop (eol + 1)))
  else .ok (ref, eol + 1)

/-- The part of `next_record` that reads the record at `pos`: the reference, and the end of the record. -/
def readRecord (src : IterSource) (pos : Nat) : Except IterError (Reference × Nat) :=
  let p := src.snapshot.drop pos
  if p.length < src.hexsz + 2 then .error (.invalidLine p)
  else
    match getOidHex src.rawsz p, p[src.hexsz]? with
    | some oid, some c =>
      if ¬ Config.isspace c then .error (.invalidLine p)
      else
        let start := pos + src.hexsz + 1
        match memchr src.snapshot start lf with
        | none => .error (.unterminatedLine p)
        | some eol =>
          let name := (src.snapshot.drop start).take (eol - start)
          let bad := !Refname.checkRefnameFormat name Refname.REFNAME_ALLOW_ONELEVEL
          if 0 ∈ name then .error (.embeddedNul name)
          else if bad ∧ ¬ refnameIsSafe src name then .error (.dangerousName name)
          else readPeeledLine src ⟨name, if bad then zeroOid else oid, none, lineFlags src name bad⟩ eol
    | _, _ => .error (.invalidLine p)

/-- The loop over the regions that are not passed yet: how many it passes, and where it leaves the iterator. -/
def passRegions : List JumpListEntry → Nat → Nat × Nat
  | [], pos => (0, pos)
  | curr :: rest, pos =>
    if pos < curr.start then (0, pos)
    else if pos < curr.stop then (1, curr.stop)
    else ((passRegions rest pos).1 + 1, (passRegions rest pos).2)

def PackedRefIterator.skip (iter : PackedRefIterator) : PackedRefIterator :=
  let passed := passRegions (iter.jump.drop iter.jumpCur) iter.pos
  { iter with jumpCur := iter.jumpCur + passed.1, pos := passed.2 }

def PackedRefIterator.nextRecord (src : IterSource) (iter : PackedRefIterator) :
    Except IterError (Option Reference × PackedRefIterator) :=
  if iter.skip.pos = src.snapshot.length then .ok (none, iter.skip)
  else (readRecord src iter.skip.pos).map fun result => (some result.1, { iter.skip with pos := result.2 })

def isPerWorktreeRef (refname : RefName) : Bool :=
  text "refs/worktree/" <+: refname ∨ text "refs/bisect/" <+: refname ∨ text "refs/rewritten/" <+: refname

def refResolvesToObject (src : IterSource) (oid : ObjectId) (flags : UInt32) : Bool :=
  if flags &&& REF_ISBROKEN ≠ 0 then false else src.hasObject oid

def hidden (src : IterSource) (ref : Reference) : Bool :=
  (src.flags &&& REFS_FOR_EACH_PER_WORKTREE_ONLY ≠ 0 ∧ ¬ isPerWorktreeRef ref.name) ∨
    (src.flags &&& REFS_FOR_EACH_INCLUDE_BROKEN = 0 ∧ ¬ refResolvesToObject src ref.oid src.flags)

/-- The loop over the prefix: whether the name has it, and no value for the `BUG`. -/
def checkPrefix : RefName → RefName → Option Bool
  | _, [] => some true
  | [], _ :: _ => none
  | c :: refname, d :: rest => if c < d then none else if d < c then some false else checkPrefix refname rest

lemma le_snd_passRegions (regions : List JumpListEntry) (pos : Nat) : pos ≤ (passRegions regions pos).2 := by
  induction regions with
  | nil => exact le_rfl
  | cons curr rest ih =>
    rw [passRegions]
    split_ifs with hstart hstop
    · exact le_rfl
    · exact hstop.le
    · exact ih

lemma lt_readPeeledLine {src : IterSource} {ref ref' : Reference} {eol stop : Nat}
    (h : readPeeledLine src ref eol = .ok (ref', stop)) : eol < stop := by
  unfold readPeeledLine at h
  grind

lemma lt_readRecord {src : IterSource} {pos stop : Nat} {ref : Reference} (h : readRecord src pos = .ok (ref, stop)) :
    pos < stop ∧ pos < src.snapshot.length := by
  unfold readRecord at h
  dsimp only at h
  split at h
  · cases h
  · rename_i hlen
    rw [List.length_drop] at hlen
    split at h
    · split at h
      · cases h
      · split at h
        · cases h
        · rename_i eol heol
          have hle := le_of_memchr heol
          split at h
          · cases h
          · split at h
            · cases h
            · have hlt := lt_readPeeledLine h
              omega
    · cases h

lemma lt_nextRecord_pos {src : IterSource} {iter next : PackedRefIterator} {ref : Reference}
    (h : iter.nextRecord src = .ok (some ref, next)) : iter.pos < next.pos ∧ iter.pos < src.snapshot.length := by
  unfold PackedRefIterator.nextRecord at h
  split_ifs at h with hend
  · cases h
  · cases hread : readRecord src iter.skip.pos with
    | error e =>
      rw [hread] at h
      cases h
    | ok result =>
      obtain ⟨ref', stop⟩ := result
      rw [hread] at h
      obtain ⟨hlt, hlen⟩ := lt_readRecord hread
      have hskip : iter.pos ≤ iter.skip.pos := le_snd_passRegions _ _
      obtain ⟨-, rfl⟩ := Prod.mk.inj (Except.ok.inj h)
      exact ⟨hskip.trans_lt hlt, hskip.trans_lt hlen⟩

def PackedRefIterator.advance (src : IterSource) (iter : PackedRefIterator) :
    Except IterError (Option Reference × PackedRefIterator) :=
  match _h : iter.nextRecord src with
  | .error e => .error e
  | .ok (none, iter) => .ok (none, iter)
  | .ok (some ref, next) =>
    if hidden src ref then next.advance src
    else
      match checkPrefix ref.name (next.seekPrefix.getD []) with
      | none => .error .precedingPrefix
      | some false => .ok (none, next)
      | some true => .ok (some ref, next)
termination_by src.snapshot.length - iter.pos
decreasing_by
  have := lt_nextRecord_pos _h
  omega

def referenceLocation (src : IterSource) (refname : RefName) : Except IterError Nat :=
  match findReferenceLocation src.hexsz src.snapshot refname false with
  | some (some p) => .ok p
  | _ => .error .overread

def referenceLocationEnd (src : IterSource) (refname : RefName) : Except IterError Nat :=
  match findReferenceLocationEnd src.hexsz src.snapshot refname false with
  | some (some p) => .ok p
  | _ => .error .overread

def seekStart (src : IterSource) (refname : Option RefName) : Except IterError Nat :=
  if refname.getD [] ≠ [] then referenceLocation src (refname.getD []) else .ok 0

/-- `packed_ref_iterator_seek`, where a refname of NULL is `none`; `setPrefix` is the flag
`REF_ITERATOR_SEEK_SET_PREFIX`. -/
def PackedRefIterator.seek (src : IterSource) (iter : PackedRefIterator) (refname : Option RefName) (setPrefix : Bool) :
    Except IterError PackedRefIterator := do
  let start ← seekStart src refname
  .ok { iter with seekPrefix := if setPrefix then refname else none, pos := start }

def isGlobSpecial (c : UInt8) : Bool := c = 0x2a ∨ c = 0x3f ∨ c = 0x5b ∨ c = 0x5c

def hasGlobSpecial (str : RefName) : Bool := str.any isGlobSpecial

/-- The first loop of `populate_excluded_jump_list`. -/
def excludedRegions (src : IterSource) : List RefName → Except IterError (List JumpListEntry)
  | [] => .ok []
  | pattern :: patterns =>
    if hasGlobSpecial pattern then excludedRegions src patterns
    else do
      let start ← referenceLocation src pattern
      let stop ← referenceLocationEnd src pattern
      let regions ← excludedRegions src patterns
      .ok (if start = stop then regions else ⟨start, stop⟩ :: regions)

/-- The second loop of `populate_excluded_jump_list`, in place. `last_disjoint` points at the entry `last`, which
is the entry `i` that was copied to `j`, not its copy. -/
def coalesceJumps (jump : List JumpListEntry) (i j last : Nat) : List JumpListEntry :=
  match _h : jump[i]?, jump[last]? with
  | some ours, some lastDisjoint =>
    if ours.start ≤ lastDisjoint.stop then coalesceJumps (jump.set last (lastDisjoint.extend ours)) (i + 1) j last
    else coalesceJumps (jump.set j ours) (i + 1) (j + 1) i
  | _, _ => jump.take j
termination_by jump.length - i
decreasing_by
  all_goals
    have := (List.getElem?_eq_some_iff.mp _h).1
    simp only [List.length_set]
    omega

def populateExcludedJumpList (src : IterSource) (qsort : List JumpListEntry → List JumpListEntry)
    (excludedPatterns : List RefName) : Except IterError (List JumpListEntry) := do
  let jump ← excludedRegions src excludedPatterns
  .ok (if jump = [] then [] else coalesceJumps (qsort jump) 1 1 0)

def packedRefIteratorBegin (src : IterSource) (qsort : List JumpListEntry → List JumpListEntry)
    (seekPrefix : Option RefName) (excludePatterns : List RefName) : Except IterError PackedRefIterator := do
  let jump ← populateExcludedJumpList src qsort excludePatterns
  PackedRefIterator.seek src { seekPrefix := none, pos := 0, jump := jump, jumpCur := 0 } seekPrefix true

inductive IterCall
  | seek (refname : Option RefName) (setPrefix : Bool)
  | advance
  deriving DecidableEq

def PackedRefIterator.run (src : IterSource) : List IterCall → PackedRefIterator →
    Except IterError (List (Option Reference))
  | [], _ => .ok []
  | .seek refname setPrefix :: calls, iter => do
    let iter ← iter.seek src refname setPrefix
    run src calls iter
  | .advance :: calls, iter => do
    let (ref, iter) ← iter.advance src
    let refs ← run src calls iter
    .ok (ref :: refs)

end GitCore.Refs
