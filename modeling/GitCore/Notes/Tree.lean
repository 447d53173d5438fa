import GitCore.Lib.Traced

/-!
# The tree of notes in memory

The 16-tree of `notes.c`. A node stands at the path of the nibbles that lead to it, and a slot at the path of its
node and its index. The log of a computation has every index into `parent_stack`, and the leaves that are put
below a new node.
-/

namespace GitCore.Notes

abbrev Path := List (Fin 16)

def GIT_MAX_RAWSZ : Nat := 32

structure LeafNode where
  keyOid : List UInt8
  valOid : List UInt8
deriving DecidableEq

inductive Ptr
  | null
  | internal
  | note (l : LeafNode)
  | subtree (l : LeafNode)
deriving DecidableEq

inductive LeafType
  | note
  | subtree
deriving DecidableEq

def setPtrType (entry : LeafNode) : LeafType → Ptr
  | .note => .note entry
  | .subtree => .subtree entry

abbrev Slots := Path → Ptr

inductive Event
  | parentStack (index : Nat)
  | split (l entry : LeafNode)
deriving DecidableEq

inductive Failure
  | outOfFuel
  | die
  | bug
  | assertion
deriving DecidableEq

structure NameEntry where
  mode : Nat
  path : List UInt8
  oid : List UInt8

/-- What the repository gives: the length of its hashes, the entries of a tree object, and the result of
`combine_notes_concatenate` for the current and the new value. -/
structure Repository where
  rawsz : Nat
  fillTreeDescriptor : List UInt8 → Option (List NameEntry)
  combineNotesConcatenate : List UInt8 → List UInt8 → Int × List UInt8

def isNullOid (oid : List UInt8) : Bool := oid.all (· = 0)

def getNibble (n : Nat) (sha1 : List UInt8) : Fin 16 :=
  Fin.ofNat 16 (if n % 2 = 0 then (sha1.getD (n / 2) 0).toNat / 16 else (sha1.getD (n / 2) 0).toNat)

def keyPath (sha1 : List UInt8) (n : Nat) : Path := (List.range n).map (getNibble · sha1)

def slotOf (tree : Path) (sha1 : List UInt8) : Path := tree ++ [getNibble tree.length sha1]

def hexval (c : UInt8) : Option UInt8 :=
  if 0x30 ≤ c ∧ c ≤ 0x39 then some (c - 0x30)
  else if 0x41 ≤ c ∧ c ≤ 0x46 then some (c - 0x37)
  else if 0x61 ≤ c ∧ c ≤ 0x66 then some (c - 0x57)
  else none

def hexToBytes : Nat → List UInt8 → Option (List UInt8)
  | 0, _ => some []
  | len + 1, a :: b :: hex => do
    let high ← hexval a
    let low ← hexval b
    let bytes ← hexToBytes len hex
    some (((high <<< 4) ||| low) :: bytes)
  | _ + 1, _ => none

def sIsReg (mode : Nat) : Bool := mode / 2 ^ 12 % 2 ^ 4 = 8

def sIsDir (mode : Nat) : Bool := mode / 2 ^ 12 % 2 ^ 4 = 4

section

variable (repo : Repository)

/-- The prefix length of a subtree entry, `key_oid.hash[KEY_INDEX]`. -/
def prefixLen (subtree : LeafNode) : Nat := (subtree.keyOid.getD (repo.rawsz - 1) 0).toNat

/-- `!SUBTREE_SHA1_PREFIXCMP(key_sha1, subtree)` -/
def matchesSubtree (sha1 : List UInt8) (subtree : LeafNode) : Bool :=
  sha1.take (prefixLen repo subtree) = subtree.keyOid.take (prefixLen repo subtree)

def leafOf (subtree : LeafNode) (entry : NameEntry) : Option (LeafNode × LeafType) :=
  let len := prefixLen repo subtree
  let front := subtree.keyOid.take len
  if entry.path.length = 2 * (repo.rawsz - len) then
    if sIsReg entry.mode then
      (hexToBytes (repo.rawsz - len) entry.path).map fun bytes => (⟨front ++ bytes, entry.oid⟩, .note)
    else none
  else if entry.path.length = 2 then
    if sIsDir entry.mode then
      (hexToBytes 1 entry.path).map fun bytes =>
        (⟨front ++ bytes ++ List.replicate (repo.rawsz - (len + 1) - 1) 0 ++ [UInt8.ofNat (len + 1)], entry.oid⟩, .subtree)
    else none
  else none

end

def callocNode (slots : Slots) (node : Path) : Slots :=
  fun q => if node.isPrefixOf q ∧ q ≠ node then .null else slots q

def noteTreeConsolidate (slots : Slots) (tree : Path) : Option Slots :=
  match ((List.finRange 16).map fun i => slots (tree ++ [i])).filter (· ≠ .null) with
  | [] => some (Function.update slots tree .null)
  | [.note l] => some (Function.update slots tree (.note l))
  | _ => none

def logStack (index : Nat) : Traced Event Failure Unit := Traced.emit (.parentStack index) ()

/-- `for (i = 0; i < n; i++) parent_stack[i + 1] = parent_stack[i]->a[j]`, after the first `i` rounds. -/
def buildStack : Nat → Traced Event Failure Unit
  | 0 => logStack 0
  | i + 1 => do
    buildStack i
    logStack i
    logStack (i + 1)

def unwindStack (sha1 : List UInt8) : Nat → Slots → Traced Event Failure Slots
  | 0, slots => pure slots
  | i + 1, slots => do
    logStack (i + 1)
    logStack i
    match noteTreeConsolidate slots (keyPath sha1 (i + 1)) with
    | some slots => unwindStack sha1 i slots
    | none => pure slots

section

variable (repo : Repository)

def matchingSubtree (slots : Slots) (slot : Path) (sha1 : List UInt8) : Option LeafNode :=
  match slots slot with
  | .subtree l => if matchesSubtree repo sha1 l then some l else none
  | _ => none

/-- `combine_notes_fn`: the result and the new value, for the current and the new one. -/
abbrev CombineNotesFn := List UInt8 → List UInt8 → Int × List UInt8

mutual

def noteTreeSearch : Nat → Slots → Path → List UInt8 → Traced Event Failure (Slots × Path)
  | 0, _, _, _ => Traced.fail .outOfFuel
  | fuel + 1, slots, tree, sha1 =>
    match matchingSubtree repo slots (tree ++ [0]) sha1 with
    | some l => do
      let slots ← loadSubtree fuel (Function.update slots (tree ++ [0]) .null) l tree
      noteTreeSearch fuel slots tree sha1
    | none =>
      let slot := slotOf tree sha1
      if slots slot = .internal then noteTreeSearch fuel slots slot sha1
      else
        match matchingSubtree repo slots slot sha1 with
        | some l => do
          let slots ← loadSubtree fuel (Function.update slots slot .null) l tree
          noteTreeSearch fuel slots tree sha1
        | none => pure (slots, tree)

/-- `note_tree_remove`: the slots, and the value of the entry where one was removed. -/
def noteTreeRemove : Nat → Slots → Path → LeafNode → Traced Event Failure (Slots × Option (List UInt8))
  | 0, _, _, _ => Traced.fail .outOfFuel
  | fuel + 1, slots, tree, entry => do
    let (slots, tree) ← noteTreeSearch fuel slots tree entry.keyOid
    match slots (slotOf tree entry.keyOid) with
    | .note l =>
      if l.keyOid = entry.keyOid then do
        let slots := Function.update slots (slotOf tree entry.keyOid) .null
        let n := tree.length
        if n = 0 then pure (slots, some l.valOid)
        else do
          buildStack n
          if keyPath entry.keyOid n = tree then do
            logStack n
            let slots ← unwindStack entry.keyOid n slots
            pure (slots, some l.valOid)
          else Traced.fail .assertion
      else pure (slots, none)
    | _ => pure (slots, none)

def noteTreeInsert : Nat → Slots → Path → LeafNode → LeafType → CombineNotesFn → Traced Event Failure (Slots × Int)
  | 0, _, _, _, _, _ => Traced.fail .outOfFuel
  | fuel + 1, slots, tree, entry, type, combineNotes => do
    let (slots, tree) ← noteTreeSearch fuel slots tree entry.keyOid
    let slot := slotOf tree entry.keyOid
    match slots slot with
    | .null =>
      pure (if isNullOid entry.valOid then slots else Function.update slots slot (setPtrType entry type), 0)
    | .note l =>
      if type = .note ∧ l.keyOid = entry.keyOid then
        if l.valOid = entry.valOid then pure (slots, 0)
        else do
          let (ret, valOid) := combineNotes l.valOid entry.valOid
          let slots := Function.update slots slot (.note { l with valOid := valOid })
          if ret = 0 ∧ isNullOid valOid then do
            let (slots, _) ← noteTreeRemove fuel slots tree entry
            pure (slots, ret)
          else pure (slots, ret)
      else if type = .subtree ∧ matchesSubtree repo l.keyOid entry then do
        let slots ← loadSubtree fuel slots entry tree
        pure (slots, 0)
      else splitLeaf fuel slots tree l .note entry type combineNotes
    | .subtree l =>
      if matchesSubtree repo entry.keyOid l then do
        let slots ← loadSubtree fuel (Function.update slots slot .null) l tree
        noteTreeInsert fuel slots tree entry type combineNotes
      else splitLeaf fuel slots tree l .subtree entry type combineNotes
    | .internal => Traced.fail .assertion

/-- The end of `note_tree_insert`: a new node for a leaf and the entry that does not match it. -/
def splitLeaf : Nat → Slots → Path → LeafNode → LeafType → LeafNode → LeafType → CombineNotesFn →
    Traced Event Failure (Slots × Int)
  | 0, _, _, _, _, _, _, _ => Traced.fail .outOfFuel
  | fuel + 1, slots, tree, l, leafType, entry, type, combineNotes =>
    if isNullOid entry.valOid then pure (slots, 0)
    else do
      Traced.emit (.split l entry) ()
      let newNode := slotOf tree entry.keyOid
      let (slots, ret) ← noteTreeInsert fuel (callocNode slots newNode) newNode l leafType combineNotes
      if ret ≠ 0 then pure (slots, ret)
      else noteTreeInsert fuel (Function.update slots newNode .internal) newNode entry type combineNotes

def loadSubtree : Nat → Slots → LeafNode → Path → Traced Event Failure Slots
  | 0, _, _, _ => Traced.fail .outOfFuel
  | fuel + 1, slots, subtree, node =>
    match repo.fillTreeDescriptor subtree.valOid with
    | none => Traced.fail .die
    | some entries =>
      let len := prefixLen repo subtree
      if repo.rawsz ≤ len then Traced.fail .bug
      else if len * 2 < node.length then Traced.fail .bug
      else
        entries.foldlM (fun slots entry =>
          match leafOf repo subtree entry with
          | none => pure slots
          | some (l, type) => do
            let (slots, ret) ← noteTreeInsert fuel slots node l type repo.combineNotesConcatenate
            if ret ≠ 0 then Traced.fail .die else pure slots) slots

end

end

/-- What is done with a tree: `add_note` with a function that combines, `remove_note`, `get_note`, and the
unpacking of a subtree entry of a node by `for_each_note_helper`. -/
inductive NotesOp
  | addNote (objectOid noteOid : List UInt8) (combineNotes : CombineNotesFn)
  | removeNote (objectSha1 : List UInt8)
  | getNote (oid : List UInt8)
  | unpack (tree : Path) (i : Fin 16)

section

variable (repo : Repository) (fuel : Nat)

def initNotes (tree : List UInt8) : Traced Event Failure Slots :=
  loadSubtree repo fuel (fun _ => .null) ⟨List.replicate repo.rawsz 0, tree⟩ []

def runOp (slots : Slots) : NotesOp → Traced Event Failure Slots
  | .addNote objectOid noteOid combineNotes => do
    let (slots, _) ← noteTreeInsert repo fuel slots [] ⟨objectOid, noteOid⟩ .note combineNotes
    pure slots
  | .removeNote objectSha1 => do
    let (slots, _) ← noteTreeRemove repo fuel slots [] ⟨objectSha1, List.replicate repo.rawsz 0⟩
    pure slots
  | .getNote oid => do
    let (slots, _) ← noteTreeSearch repo fuel slots [] oid
    pure slots
  | .unpack tree i =>
    if tree = [] ∨ slots tree = .internal then
      match slots (tree ++ [i]) with
      | .subtree l => loadSubtree repo fuel (Function.update slots (tree ++ [i]) .null) l tree
      | _ => pure slots
    else pure slots

def runNotes (tree : List UInt8) (ops : List NotesOp) : Traced Event Failure Slots := do
  let slots ← initNotes repo fuel tree
  ops.foldlM (runOp repo fuel) slots

end

end GitCore.Notes
