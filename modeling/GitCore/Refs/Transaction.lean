import GitCore.Lib.Bytes
import GitCore.Lib.Overlay

/-!
# Reference transactions

The transaction of `refs.c`: the queue of updates in the order they were added, the list of
the refnames, sorted by `ref_transaction_prepare`, and the updates rejected so far.
-/

namespace GitCore.Refs

abbrev RefName := List UInt8

abbrev Strbuf := List UInt8

def text (s : String) : Strbuf :=
  s.toList.map (fun c => UInt8.ofNat c.toNat)

structure ObjectId where
  hash : List UInt8
  deriving DecidableEq

def zeroOid : ObjectId := ⟨List.replicate 32 0⟩

def ObjectId.isNull (oid : ObjectId) : Bool :=
  oid.hash.all (· == 0)

def hexDigit (n : Nat) : UInt8 :=
  UInt8.ofNat (if n < 10 then 48 + n else 87 + n)

def oidToHex (oid : ObjectId) : Strbuf :=
  oid.hash.flatMap (fun b => [hexDigit (b.toNat / 16), hexDigit (b.toNat % 16)])

inductive RefTransactionError
  | generic
  | nameConflict
  | createExists
  | nonexistentRef
  | incorrectOldValue
  | invalidNewValue
  | expectedSymref
  | caseConflict
  deriving DecidableEq

/-- `struct ref_update`; without `REF_HAVE_NEW` the new object id is left zeroed. -/
structure RefUpdate where
  refname : RefName
  haveNew : Bool
  haveOld : Bool
  havePeeled : Bool
  logOnly : Bool
  newOid : ObjectId
  oldOid : ObjectId
  peeled : ObjectId
  newOid_isNull : haveNew = false → newOid.isNull = true
  deriving DecidableEq

/-- A rejected update: its index in the queue, its error and the text for the user. -/
structure Rejection where
  updateIdx : Nat
  rejectionErr : RefTransactionError
  rejectionDetails : Strbuf
  deriving DecidableEq

structure RefTransaction where
  allowFailure : Bool
  updates : List RefUpdate
  /-- The string list of refnames with their updates. -/
  refnames : List RefUpdate
  rejections : List Rejection
  deriving DecidableEq

def refTransactionBegin (allowFailure : Bool) : RefTransaction :=
  ⟨allowFailure, [], [], []⟩

def newRefUpdate (refname : RefName) (haveNew haveOld havePeeled logOnly : Bool)
    (newOid oldOid : Option ObjectId) (peeled : ObjectId) : RefUpdate where
  refname := refname
  haveNew := haveNew
  haveOld := haveOld
  havePeeled := havePeeled
  logOnly := logOnly
  newOid := if haveNew then newOid.getD zeroOid else zeroOid
  oldOid := if haveOld then oldOid.getD zeroOid else zeroOid
  peeled := if havePeeled then peeled else zeroOid
  newOid_isNull h := by
    rw [h]
    exact (by decide : zeroOid.isNull = true)

def refTransactionAddUpdate (transaction : RefTransaction) (update : RefUpdate) : RefTransaction :=
  { transaction with
    updates := transaction.updates ++ [update]
    refnames := if update.logOnly then transaction.refnames else transaction.refnames ++ [update] }

def queueUpdates (allowFailure : Bool) (updates : List RefUpdate) : RefTransaction :=
  updates.foldl refTransactionAddUpdate (refTransactionBegin allowFailure)

/-- `ref_update_reject_duplicates` on the sorted list of refnames: the error text, if any. -/
def refUpdateRejectDuplicates : List RefUpdate → Option Strbuf
  | update :: next :: rest =>
    if update.refname = next.refname then
      some (text "multiple updates for ref '" ++ next.refname ++ text "' not allowed")
    else refUpdateRejectDuplicates (next :: rest)
  | _ => none

def refTransactionPrepare (transaction : RefTransaction) :
    Except (RefTransactionError × Strbuf) RefTransaction :=
  let refnames := transaction.refnames.insertionSort (fun a b => a.refname ≤ b.refname)
  match refUpdateRejectDuplicates refnames with
  | some err => .error (.generic, err)
  | none => .ok { transaction with refnames := refnames }

def stringListRemove (refnames : List RefUpdate) (refname : RefName) : List RefUpdate :=
  refnames.eraseP (fun update => update.refname == refname)

inductive Rejected
  /-- `BUG("trying to set rejection on invalid update index")` -/
  | bug
  | no
  | yes (transaction : RefTransaction)

def refTransactionMaybeSetRejected (transaction : RefTransaction) (updateIdx : Nat)
    (err : RefTransactionError) (details : Strbuf) : Rejected :=
  match transaction.updates[updateIdx]? with
  | none => .bug
  | some update =>
    if !transaction.allowFailure then .no
    else if err = .generic then .no
    else .yes
      { transaction with
        refnames := stringListRemove transaction.refnames update.refname
        rejections := transaction.rejections ++ [⟨updateIdx, err, details⟩] }

structure Prepared (transaction : RefTransaction) : Prop where
  refnames_perm : transaction.refnames.Perm (transaction.updates.filter (fun update => !update.logOnly))
  refnames_sorted : Overlay.Sorted RefUpdate.refname transaction.refnames
  rejections_nil : transaction.rejections = []

lemma foldl_addUpdate (updates : List RefUpdate) (transaction : RefTransaction) :
    updates.foldl refTransactionAddUpdate transaction =
      { transaction with
        updates := transaction.updates ++ updates
        refnames := transaction.refnames ++ updates.filter (fun update => !update.logOnly) } := by
  induction updates generalizing transaction with
  | nil => simp
  | cons update updates ih =>
    rw [List.foldl_cons, ih]
    cases h : update.logOnly <;> simp [refTransactionAddUpdate, h]

lemma queueUpdates_eq (allowFailure : Bool) (updates : List RefUpdate) :
    queueUpdates allowFailure updates =
      ⟨allowFailure, updates, updates.filter (fun update => !update.logOnly), []⟩ := by
  simp [queueUpdates, foldl_addUpdate, refTransactionBegin]

lemma sorted_of_no_duplicates {refnames : List RefUpdate}
    (hsorted : refnames.Pairwise (fun a b => a.refname ≤ b.refname))
    (h : refUpdateRejectDuplicates refnames = none) : Overlay.Sorted RefUpdate.refname refnames := by
  induction refnames with
  | nil => exact List.Pairwise.nil
  | cons update refnames ih =>
    obtain ⟨hle, htail⟩ := List.pairwise_cons.mp hsorted
    cases refnames with
    | nil => exact List.pairwise_singleton _ _
    | cons next rest =>
      rw [refUpdateRejectDuplicates] at h
      split at h
      · cases h
      rename_i hne
      have hnext := ih htail h
      have hlt : update.refname < next.refname := lt_of_le_of_ne (hle next (by simp)) hne
      refine List.pairwise_cons.mpr ⟨?_, hnext⟩
      intro later hlater
      cases hlater with
      | head => exact hlt
      | tail _ hlater => exact hlt.trans ((List.pairwise_cons.mp hnext).1 later hlater)

lemma prepared_of_prepare {allowFailure : Bool} {updates : List RefUpdate} {transaction : RefTransaction}
    (h : refTransactionPrepare (queueUpdates allowFailure updates) = .ok transaction) :
    Prepared transaction ∧ transaction.allowFailure = allowFailure ∧ transaction.updates = updates := by
  rw [queueUpdates_eq] at h
  simp only [refTransactionPrepare] at h
  split at h
  · cases h
  · rename_i hdup
    obtain rfl := Except.ok.inj h
    have hsorted := List.pairwise_insertionSort (fun a b : RefUpdate => a.refname ≤ b.refname)
      (updates.filter (fun update => !update.logOnly))
    exact ⟨⟨List.perm_insertionSort _ _, sorted_of_no_duplicates hsorted hdup, rfl⟩, rfl, rfl⟩

end GitCore.Refs
