import GitCore.Refs.Transaction

/-!
# Writing the packed refs

`write_with_updates` of `packed-backend.c`: an iterator over the packed refs and the sorted
list of refnames are walked in parallel. Each round of the loop is one step, so that a loop
that does not end is a run without a result.
-/

namespace GitCore.Refs

structure PackedRef where
  name : RefName
  oid : ObjectId
  peeledOid : Option ObjectId
  deriving DecidableEq

def packedRefsHeader : Strbuf :=
  text "# pack-refs with: peeled fully-peeled sorted \n"

def writePackedEntry (ref : PackedRef) : Strbuf :=
  oidToHex ref.oid ++ text " " ++ ref.name ++ text "\n" ++
    match ref.peeledOid with
    | some peeled => text "^" ++ oidToHex peeled ++ text "\n"
    | none => []

structure WriteState where
  /-- The refs that the iterator has not passed yet, its current one first. -/
  iter : List PackedRef
  i : Nat
  transaction : RefTransaction
  out : Strbuf
  err : Strbuf
  deriving DecidableEq

inductive WriteResult
  | success (out : Strbuf) (transaction : RefTransaction)
  | error (ret : RefTransactionError) (err : Strbuf)
  | bug
  deriving DecidableEq

inductive WriteStep
  | next (s : WriteState)
  | result (r : WriteResult)

def oldValueError (update : RefUpdate) : Option PackedRef → Option (RefTransactionError × Strbuf)
  | some ref =>
    if !update.haveOld then none
    else if update.oldOid.isNull then
      some (.createExists, text "cannot update ref '" ++ update.refname ++
        text "': reference already exists")
    else if update.oldOid ≠ ref.oid then
      some (.incorrectOldValue, text "cannot update ref '" ++ update.refname ++ text "': is at " ++
        oidToHex ref.oid ++ text " but expected " ++ oidToHex update.oldOid)
    else none
  | none =>
    if update.haveOld && !update.oldOid.isNull then
      some (.nonexistentRef, text "cannot update ref '" ++ update.refname ++
        text "': reference is missing but expected " ++ oidToHex update.oldOid)
    else none

/-- A failed check: the update at the position of the walk is rejected, or the write fails. -/
def rejectUpdate (s : WriteState) (ret : RefTransactionError) (err : Strbuf) : WriteStep :=
  match refTransactionMaybeSetRejected s.transaction s.i ret (s.err ++ err) with
  | .bug => .result .bug
  | .no => .result (.error ret (s.err ++ err))
  | .yes transaction => .next { s with transaction := transaction, err := [] }

def passThrough (s : WriteState) (ref : PackedRef) (iter : List PackedRef) : WriteState :=
  { s with iter := iter, out := s.out ++ writePackedEntry ref }

def newEntry (update : RefUpdate) : Option PackedRef :=
  if update.newOid.isNull then none
  else some ⟨update.refname, update.newOid, if update.havePeeled then some update.peeled else none⟩

def writeUpdate (s : WriteState) (update : RefUpdate) : WriteState :=
  match newEntry update with
  | none => { s with i := s.i + 1 }
  | some ref => { s with i := s.i + 1, out := s.out ++ writePackedEntry ref }

def stepPresent (s : WriteState) (update : RefUpdate) (ref : PackedRef) (iter : List PackedRef) : WriteStep :=
  match oldValueError update (some ref) with
  | some (ret, err) => rejectUpdate s ret err
  | none =>
    if update.haveNew then .next (writeUpdate { s with iter := iter } update)
    else .next (passThrough { s with i := s.i + 1 } ref iter)

def stepMissing (s : WriteState) (update : RefUpdate) : WriteStep :=
  match oldValueError update none with
  | some (ret, err) => rejectUpdate s ret err
  | none => .next (writeUpdate s update)

def writeStep (s : WriteState) : WriteStep :=
  match s.transaction.refnames[s.i]?, s.iter with
  | none, [] => .result (.success s.out s.transaction)
  | none, ref :: iter => .next (passThrough s ref iter)
  | some update, [] => stepMissing s update
  | some update, ref :: iter =>
    if ref.name < update.refname then .next (passThrough s ref iter)
    else if ref.name = update.refname then stepPresent s update ref iter
    else stepMissing s update

/-- The result of the loop if it ends within `n` rounds. -/
def runWrite : Nat → WriteState → Option WriteResult
  | 0, _ => none
  | n + 1, s =>
    match writeStep s with
    | .result r => some r
    | .next s' => runWrite n s'

def writeWithUpdates (n : Nat) (refs : List PackedRef) (transaction : RefTransaction) : Option WriteResult :=
  runWrite n ⟨refs, 0, transaction, packedRefsHeader, []⟩

def oldRef (refs : List PackedRef) (update : RefUpdate) : Option PackedRef :=
  Overlay.find PackedRef.name refs update.refname

/-- The old-value condition of an update: without `REF_HAVE_OLD` there is none, a null old
value asks that the ref is missing, and any other that the ref has this value. -/
def OldHolds (refs : List PackedRef) (update : RefUpdate) : Prop :=
  update.haveOld = true →
    match oldRef refs update with
    | some ref => update.oldOid.isNull = false ∧ update.oldOid = ref.oid
    | none => update.oldOid.isNull = true

instance decidableOldHolds (refs : List PackedRef) (update : RefUpdate) : Decidable (OldHolds refs update) := by
  unfold OldHolds
  cases oldRef refs update with
  | some ref => exact inferInstanceAs (Decidable (_ → _ ∧ _))
  | none => exact inferInstanceAs (Decidable (_ → _ = _))

def updatedRef (refs : List PackedRef) (updates : List RefUpdate) (name : RefName) : Option PackedRef :=
  match Overlay.find RefUpdate.refname updates name with
  | some update => if update.haveNew then newEntry update else Overlay.find PackedRef.name refs name
  | none => Overlay.find PackedRef.name refs name

/-- The text is the header and the name-sorted merge of the old refs with the updates. -/
def WritesMerge (refs : List PackedRef) (updates : List RefUpdate) (out : Strbuf) : Prop :=
  ∃ merged : List PackedRef, Overlay.Sorted PackedRef.name merged ∧
    (∀ name, Overlay.find PackedRef.name merged name = updatedRef refs updates name) ∧
    out = packedRefsHeader ++ merged.flatMap writePackedEntry

/-- The update with this index of the queue is one for the ref and its condition fails. -/
def FailsAt (refs : List PackedRef) (transaction : RefTransaction) (idx : Nat) : Prop :=
  ∃ update, transaction.updates[idx]? = some update ∧ update.logOnly = false ∧ ¬ OldHolds refs update

/-- Every failing update stands in the queue at the position it has in the list of refnames
without the failing ones before it. -/
def FailingInPlace (refs : List PackedRef) (transaction : RefTransaction) : Prop :=
  ∀ (k : Nat) (update : RefUpdate), transaction.refnames[k]? = some update → ¬ OldHolds refs update →
    transaction.updates[((transaction.refnames.take k).filter (fun u => OldHolds refs u)).length]? = some update

/-- The outcome of a write: without failure mode it succeeds with the merge of all updates if
every old-value condition holds and fails with an error otherwise; in failure mode it rejects
the failing updates and writes the merge of the others. -/
def WriteCorrect (refs : List PackedRef) (transaction : RefTransaction) : Prop :=
  if transaction.allowFailure then
    ∃ n out result, writeWithUpdates n refs transaction = some (.success out result) ∧
      WritesMerge refs (transaction.refnames.filter (fun u => OldHolds refs u)) out ∧
      ∀ idx, (∃ rejection ∈ result.rejections, rejection.updateIdx = idx) ↔ FailsAt refs transaction idx
  else
    ∃ n r, writeWithUpdates n refs transaction = some r ∧
      ((∀ update ∈ transaction.refnames, OldHolds refs update) →
        ∃ out result, r = .success out result ∧ WritesMerge refs transaction.refnames out) ∧
      ((∃ update ∈ transaction.refnames, ¬ OldHolds refs update) → ∃ ret err, r = .error ret err)

end GitCore.Refs
