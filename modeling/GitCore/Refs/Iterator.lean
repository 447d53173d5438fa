import GitCore.Refs.PackedIterator
import GitCore.Lib.Loop
import GitCore.Refs.Transaction
import Mathlib.Logic.Function.Basic

/-!
# Merging ref iterators

`merge_ref_iterator_advance` and `merge_ref_iterator_seek` of `refs/iterator.c`, with the functions that select for
`overlay_ref_iterator_begin` and for a worktree. A pointer to a sub-iterator that is exhausted is `NULL`, and following
such a pointer has no result.
-/

namespace GitCore.Refs

/-- `struct reference`, with its target, ids and flags as one value. -/
structure IterRef (V : Type) where
  name : RefName
  value : V
  deriving DecidableEq

inductive IterStatus
  | ok
  | done
  | error
  deriving DecidableEq

variable {V : Type}

/-- A `struct ref_iterator`, with the entries behind its current one. `seekTo` tells what it finds behind a seek to a
name, with `REF_ITERATOR_SEEK_SET_PREFIX` or without; an entry that is `none` is an error. -/
structure RefIterator (V : Type) where
  /-- The table of functions is `empty_ref_iterator_vtable`. -/
  isEmpty : Bool
  seekTo : RefName → Bool → Option (List (Option (IterRef V)))
  rest : List (Option (IterRef V))
  ref : Option (IterRef V)

def RefIterator.advance (it : RefIterator V) : IterStatus × RefIterator V :=
  if it.isEmpty then (.done, it)
  else
    match it.rest with
    | [] => (.done, it)
    | none :: rest => (.error, { it with rest := rest })
    | some ref :: rest => (.ok, { it with rest := rest, ref := some ref })

def RefIterator.seek (it : RefIterator V) (refname : RefName) (setPrefix : Bool) : Bool × RefIterator V :=
  if it.isEmpty then (true, it)
  else
    match it.seekTo refname setPrefix with
    | none => (false, it)
    | some rest => (true, { it with rest := rest })

inductive Slot
  | iter0
  | iter1
  deriving DecidableEq

def Slot.other : Slot → Slot
  | .iter0 => .iter1
  | .iter1 => .iter0

inductive IteratorSelection
  | selectDone
  | selectError
  | select0
  | select0Skip1
  | skip0
  | select1
  | select1Skip0
  | skip1
  deriving DecidableEq

def IteratorSelection.current : IteratorSelection → Slot
  | .select0 | .select0Skip1 | .skip1 | .selectDone | .selectError => .iter0
  | .select1 | .select1Skip0 | .skip0 => .iter1

def IteratorSelection.yieldCurrent : IteratorSelection → Bool
  | .select0 | .select0Skip1 | .select1 | .select1Skip0 | .selectDone | .selectError => true
  | .skip0 | .skip1 => false

def IteratorSelection.skipSecondary : IteratorSelection → Bool
  | .select0Skip1 | .select1Skip0 | .skip0 | .skip1 | .selectDone | .selectError => true
  | .select0 | .select1 => false

/-- `ref_iterator_select_fn`; it has no result if it reads the name of an iterator that was not advanced. -/
abbrev RefIteratorSelectFn (V : Type) := Option (RefIterator V) → Option (RefIterator V) → Option IteratorSelection

def overlayIteratorSelect : RefIteratorSelectFn V := fun front back =>
  match front, back with
  | none, none => some .selectDone
  | some _, none => some .select0
  | none, some _ => some .select1
  | some front, some back => do
    let a ← front.ref
    let b ← back.ref
    if a.name < b.name then return .select0
    else if b.name < a.name then return .select1
    else return .select0Skip1

inductive RefWorktreeType
  | current
  | main
  | other
  | shared
  deriving DecidableEq

def isRootRefSyntax (refname : RefName) : Bool :=
  refname.all fun c => (0x41 ≤ c ∧ c ≤ 0x5a) ∨ c = 0x2d ∨ c = 0x5f

def isCurrentWorktreeRef (ref : RefName) : Bool := isRootRefSyntax ref || isPerWorktreeRef ref

def parseWorktreeRef (maybeWorktreeRef : RefName) : RefWorktreeType × Option (List UInt8) × RefName :=
  let bareRefname := maybeWorktreeRef.drop (text "worktrees/").length
  let worktreeName := bareRefname.takeWhile (· ≠ 0x2f)
  let behind := bareRefname.dropWhile (· ≠ 0x2f)
  if (text "worktrees/").isPrefixOf maybeWorktreeRef ∧ behind = [] then (.other, some worktreeName, [])
  else if (text "worktrees/").isPrefixOf maybeWorktreeRef ∧ isCurrentWorktreeRef (behind.drop 1) then
    (.other, some worktreeName, behind.drop 1)
  else
    let bareRefname := maybeWorktreeRef.drop (text "main-worktree/").length
    if (text "main-worktree/").isPrefixOf maybeWorktreeRef ∧ isCurrentWorktreeRef bareRefname then
      (.main, none, bareRefname)
    else if isCurrentWorktreeRef maybeWorktreeRef then (.current, none, maybeWorktreeRef)
    else (.shared, none, maybeWorktreeRef)

def isShared (refname : RefName) : Bool := (parseWorktreeRef refname).1 = .shared

def refIteratorSelect : RefIteratorSelectFn V := fun iterWorktree iterCommon =>
  match iterWorktree, iterCommon with
  | none, none => some .selectDone
  | some _, none => some .select0
  | none, some common => do
    let b ← common.ref
    return if isShared b.name then .select1 else .skip1
  | some worktree, some common => do
    let a ← worktree.ref
    let b ← common.ref
    if a.name < b.name then return .select0
    else if a.name = b.name then return .select0Skip1
    else return if isShared b.name then .select1 else .skip1

/-- `struct merge_ref_iterator`: a pointer to a sub-iterator is set or `NULL`. -/
structure MergeRefIterator (V : Type) where
  owned : Slot → RefIterator V
  isSet : Slot → Bool
  select : RefIteratorSelectFn V
  current : Option Slot
  ref : Option (IterRef V)

namespace MergeRefIterator

def slot (iter : MergeRefIterator V) (s : Slot) : Option (RefIterator V) :=
  if iter.isSet s then some (iter.owned s) else none

/-- A sub-iterator is advanced, and its pointer is set to `NULL` at its end. -/
def advanceSlot (iter : MergeRefIterator V) (s : Slot) : Option (IterStatus × MergeRefIterator V) :=
  if iter.isSet s then
    let advanced := (iter.owned s).advance
    some (advanced.1,
      { iter with
        owned := Function.update iter.owned s advanced.2
        isSet := if advanced.1 = .ok then iter.isSet else Function.update iter.isSet s false })
  else none

def skip (iter : MergeRefIterator V) (selection : IteratorSelection) : Option (IterStatus × MergeRefIterator V) :=
  if selection.skipSecondary then
    ({ iter with current := some selection.current } : MergeRefIterator V).advanceSlot selection.current.other
  else some (.ok, { iter with current := some selection.current })

def obey (iter : MergeRefIterator V) (selection : IteratorSelection) :
    MergeRefIterator V ⊕ Option (IterStatus × MergeRefIterator V) :=
  match iter.skip selection with
  | none => .inr none
  | some (.error, iter) => .inr (some (.error, iter))
  | some (_, iter) =>
    if selection.yieldCurrent then
      .inr ((iter.slot selection.current).map fun current => (.ok, { iter with ref := current.ref }))
    else .inl iter

/-- A round of the loop of `merge_ref_iterator_advance`. -/
def step (iter : MergeRefIterator V) : MergeRefIterator V ⊕ Option (IterStatus × MergeRefIterator V) :=
  match iter.select (iter.slot .iter0) (iter.slot .iter1) with
  | none => .inr none
  | some .selectDone => .inr (some (.done, iter))
  | some .selectError => .inr (some (.error, iter))
  | some selection => iter.obey selection

/-- The entries that the pointers can still lead to, and the ends of the sub-iterators. -/
def left (iter : MergeRefIterator V) (s : Slot) : Nat := if iter.isSet s then (iter.owned s).rest.length + 1 else 0

def size (iter : MergeRefIterator V) : Nat := iter.left .iter0 + iter.left .iter1

lemma advance_rest_le (it : RefIterator V) :
    it.advance.2.rest.length ≤ it.rest.length ∧ (it.advance.1 = .ok → it.advance.2.rest.length < it.rest.length) := by
  rw [RefIterator.advance]
  split_ifs
  · simp
  · cases h : it.rest with
    | nil => simp [h]
    | cons entry rest => cases entry <;> simp

variable {iter iter' : MergeRefIterator V}

lemma size_advanceSlot {s : Slot} {status : IterStatus}
    (h : iter.advanceSlot s = some (status, iter')) : iter'.size < iter.size := by
  have hrest := advance_rest_le (iter.owned s)
  rw [advanceSlot] at h
  split_ifs at h with hset
  obtain ⟨-, rfl⟩ := Prod.mk.inj (Option.some.inj h)
  by_cases hok : (iter.owned s).advance.1 = .ok
  · have hlt := hrest.2 hok
    cases s <;> simp [size, left, hok, hset] <;> omega
  · cases s <;> simp [size, left, hok, hset]

lemma size_skip {selection : IteratorSelection} {status : IterStatus}
    (hskip : selection.skipSecondary = true) (h : iter.skip selection = some (status, iter')) :
    iter'.size < iter.size := by
  rw [skip, if_pos hskip] at h
  have hlt := size_advanceSlot h
  exact hlt

lemma size_step (h : iter.step = .inl iter') : iter'.size < iter.size := by
  have hobey : ∀ selection : IteratorSelection, iter.obey selection = .inl iter' → iter'.size < iter.size := by
    intro selection hobey
    rw [obey] at hobey
    cases hskip : iter.skip selection with
    | none => simp [hskip] at hobey
    | some result =>
      obtain ⟨status, skipped⟩ := result
      rw [hskip] at hobey
      have hyield : selection.yieldCurrent = false := by
        cases hyield : selection.yieldCurrent with
        | false => rfl
        | true => cases status <;> simp [hyield] at hobey
      have hsecondary : selection.skipSecondary = true := by
        cases selection <;> first | rfl | cases hyield
      have hlt := size_skip hsecondary hskip
      cases status <;> simp [hyield] at hobey <;> rwa [← hobey]
  rw [step] at h
  cases hselect : iter.select (iter.slot .iter0) (iter.slot .iter1) with
  | none => simp [hselect] at h
  | some selection =>
    rw [hselect] at h
    cases selection <;> first | (exact hobey _ h) | cases h

/-- The loop of `merge_ref_iterator_advance`. -/
def findNext (iter : MergeRefIterator V) : Option (IterStatus × MergeRefIterator V) :=
  loop step size (fun _ _ => size_step) iter

/-- The start of `merge_ref_iterator_advance`: both sub-iterators are advanced to their first entries, or the one that
supplied the last value is advanced past it. -/
def prepare (iter : MergeRefIterator V) : Option (IterStatus × MergeRefIterator V) :=
  match iter.current with
  | none => do
    let (status, iter) ← iter.advanceSlot .iter0
    if status = .error then return (.error, iter) else iter.advanceSlot .iter1
  | some s => iter.advanceSlot s

def advance (iter : MergeRefIterator V) : Option (IterStatus × MergeRefIterator V) := do
  let (status, iter) ← iter.prepare
  if status = .error then return (.error, iter) else iter.findNext

def seekSlot (iter : MergeRefIterator V) (s : Slot) (refname : RefName) (setPrefix : Bool) :
    Bool × MergeRefIterator V :=
  let sought := (iter.owned s).seek refname setPrefix
  (sought.1, { iter with owned := Function.update iter.owned s sought.2 })

def seek (iter : MergeRefIterator V) (refname : RefName) (setPrefix : Bool) : Bool × MergeRefIterator V :=
  let sought := ({ iter with current := none, isSet := fun _ => true } : MergeRefIterator V).seekSlot .iter0 refname setPrefix
  if sought.1 then sought.2.seekSlot .iter1 refname setPrefix else (false, sought.2)

end MergeRefIterator

def mergeRefIteratorBegin (iter0 iter1 : RefIterator V) (select : RefIteratorSelectFn V) : MergeRefIterator V where
  owned := fun s => match s with
    | .iter0 => iter0
    | .iter1 => iter1
  isSet := fun _ => true
  select := select
  current := none
  ref := none

inductive OverlayRefIterator (V : Type)
  | plain (iter : RefIterator V)
  | merge (iter : MergeRefIterator V)

def overlayRefIteratorBegin (front back : RefIterator V) : OverlayRefIterator V :=
  if front.isEmpty then .plain back
  else if back.isEmpty then .plain front
  else .merge (mergeRefIteratorBegin front back overlayIteratorSelect)

namespace OverlayRefIterator

def advance : OverlayRefIterator V → Option (IterStatus × OverlayRefIterator V)
  | .plain iter => some (iter.advance.1, .plain iter.advance.2)
  | .merge iter => iter.advance.map fun result => (result.1, .merge result.2)

def seek : OverlayRefIterator V → RefName → Bool → Bool × OverlayRefIterator V
  | .plain iter, refname, setPrefix => ((iter.seek refname setPrefix).1, .plain (iter.seek refname setPrefix).2)
  | .merge iter, refname, setPrefix => ((iter.seek refname setPrefix).1, .merge (iter.seek refname setPrefix).2)

def ref : OverlayRefIterator V → Option (IterRef V)
  | .plain iter => iter.ref
  | .merge iter => iter.ref

end OverlayRefIterator

inductive RefIterCall
  | advance
  | seek (refname : RefName) (setPrefix : Bool)

/-- What a call tells: the ref that the iterator stands on, that it is at its end, that it failed, or that it was
sought. -/
inductive IterAnswer (V : Type)
  | yielded (ref : Option (IterRef V))
  | exhausted
  | failed
  | sought
  deriving DecidableEq

def answerOf (ref : Option (IterRef V)) : IterStatus → IterAnswer V
  | .ok => .yielded ref
  | .done => .exhausted
  | .error => .failed

def runRefIterCalls (iter : OverlayRefIterator V) : List RefIterCall → Option (List (IterAnswer V))
  | [] => some []
  | .advance :: calls => do
    let (status, iter) ← iter.advance
    let answers ← runRefIterCalls iter calls
    return answerOf iter.ref status :: answers
  | .seek refname setPrefix :: calls => do
    let sought := iter.seek refname setPrefix
    let answers ← runRefIterCalls sought.2 calls
    return (if sought.1 then .sought else .failed) :: answers

end GitCore.Refs
