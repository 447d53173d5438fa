import GitCore.Notes.Tree

/-!
# The depth of the tree of notes

A node of the tree is made where two leaves do not match, at the path of the nibbles that their keys share. While
these are fewer than the slots of `parent_stack`, every index into it is inside.
-/

namespace GitCore.Notes

open Traced (Relies)

def Apart (key key' : List UInt8) : Prop := ∃ i < GIT_MAX_RAWSZ, getNibble i key ≠ getNibble i key'

def Event.SplitsApart : Event → Prop
  | .split l entry => Apart l.keyOid entry.keyOid
  | .parentStack _ => True

instance : DecidablePred Event.SplitsApart
  | .split _ _ => inferInstanceAs (Decidable (∃ i < GIT_MAX_RAWSZ, _))
  | .parentStack _ => inferInstanceAs (Decidable True)

def Event.Inside : Event → Prop
  | .split _ _ => True
  | .parentStack index => index < GIT_MAX_RAWSZ

def OnPath (key : List UInt8) (q : Path) : Prop := keyPath key q.length = q

structure Reaches (key : List UInt8) (tree : Path) : Prop where
  onPath : OnPath key tree
  length : tree.length < GIT_MAX_RAWSZ

variable {repo : Repository}

structure Shallow (repo : Repository) (slots : Slots) : Prop where
  note : ∀ q l, slots q = .note l → OnPath l.keyOid q
  subtree : ∀ q l, slots q = .subtree l → OnPath l.keyOid q ∧ l.keyOid.length = repo.rawsz
  internal : ∀ q, slots q = .internal → q.length < GIT_MAX_RAWSZ

abbrev Keeps {α : Type} (Q : α → Prop) (m : Traced Event Failure α) : Prop :=
  Relies Event.SplitsApart Event.Inside Q m

lemma keyPath_succ (key : List UInt8) (n : Nat) : keyPath key (n + 1) = keyPath key n ++ [getNibble n key] := by
  rw [keyPath, List.range_succ, List.map_append]
  rfl

@[simp] lemma length_keyPath (key : List UInt8) (n : Nat) : (keyPath key n).length = n := by
  rw [keyPath, List.length_map, List.length_range]

lemma keyPath_eq_iff {key key' : List UInt8} {n : Nat} :
    keyPath key n = keyPath key' n ↔ ∀ i < n, getNibble i key = getNibble i key' := by
  simp [keyPath, List.map_inj_left]

lemma OnPath.slotOf {key : List UInt8} {tree : Path} (h : OnPath key tree) : OnPath key (slotOf tree key) := by
  rw [OnPath, Notes.slotOf, List.length_append, List.length_singleton, keyPath_succ, h]

lemma onPath_concat {key : List UInt8} {tree : Path} {i : Fin 16} (h : OnPath key (tree ++ [i])) : OnPath key tree := by
  rw [OnPath, List.length_append, List.length_singleton, keyPath_succ] at h
  exact (List.append_inj h (by simp)).1

lemma Apart.length_lt {key key' : List UInt8} {q : Path} (h : Apart key key') (hkey : OnPath key q)
    (hkey' : OnPath key' q) : q.length < GIT_MAX_RAWSZ := by
  obtain ⟨i, hi, hne⟩ := h
  by_contra hlen
  exact hne (keyPath_eq_iff.mp (hkey.trans hkey'.symm) i (by omega))

lemma getNibble_congr {key key' : List UInt8} {len : Nat} (h : key.take len = key'.take len) {i : Nat}
    (hi : i < 2 * len) : getNibble i key = getNibble i key' := by
  have hget : key.getD (i / 2) 0 = key'.getD (i / 2) 0 := by
    rw [List.getD_eq_getElem?_getD, List.getD_eq_getElem?_getD, ← List.getElem?_take_of_lt (show i / 2 < len by omega), h,
      List.getElem?_take_of_lt (by omega)]
  rw [getNibble, getNibble, hget]

variable {slots : Slots}

lemma Shallow.set_null (h : Shallow repo slots) (slot : Path) :
    Shallow repo (Function.update slots slot .null) := by
  constructor <;> intro q <;> rw [Function.update_apply] <;> split
  · simp
  · exact h.note q
  · simp
  · exact h.subtree q
  · simp
  · exact h.internal q

lemma Shallow.set_leaf (h : Shallow repo slots) {slot : Path} {l : LeafNode} {type : LeafType}
    (hpath : OnPath l.keyOid slot) (hlen : type = .subtree → l.keyOid.length = repo.rawsz) :
    Shallow repo (Function.update slots slot (setPtrType l type)) := by
  constructor <;> intro q <;> rw [Function.update_apply] <;> split
  · rename_i hq
    intro l' hl'
    cases type with
    | note =>
      obtain rfl : l = l' := by simpa [setPtrType] using hl'
      rwa [hq]
    | subtree => simp [setPtrType] at hl'
  · exact h.note q
  · rename_i hq
    intro l' hl'
    cases type with
    | note => simp [setPtrType] at hl'
    | subtree =>
      obtain rfl : l = l' := by simpa [setPtrType] using hl'
      exact ⟨by rwa [hq], hlen rfl⟩
  · exact h.subtree q
  · cases type <;> simp [setPtrType]
  · exact h.internal q

lemma Shallow.set_internal (h : Shallow repo slots) {slot : Path} (hlen : slot.length < GIT_MAX_RAWSZ) :
    Shallow repo (Function.update slots slot .internal) := by
  constructor <;> intro q <;> rw [Function.update_apply] <;> split
  · simp
  · exact h.note q
  · simp
  · exact h.subtree q
  · rename_i hq
    exact fun _ => hq ▸ hlen
  · exact h.internal q

lemma Shallow.calloc (h : Shallow repo slots) (node : Path) : Shallow repo (callocNode slots node) := by
  constructor <;> intro q <;> rw [callocNode] <;> split
  · simp
  · exact h.note q
  · simp
  · exact h.subtree q
  · simp
  · exact h.internal q

lemma Shallow.consolidate {slots slots' : Slots} (h : Shallow repo slots) {tree : Path}
    (heq : noteTreeConsolidate slots tree = some slots') : Shallow repo slots' := by
  rw [noteTreeConsolidate] at heq
  split at heq
  · rw [← Option.some_inj.mp heq]
    exact h.set_null tree
  · rename_i l hfilter
    rw [← Option.some_inj.mp heq]
    have hmem : Ptr.note l ∈ ((List.finRange 16).map fun i => slots (tree ++ [i])).filter (· ≠ .null) := by
      rw [hfilter]
      simp
    obtain ⟨i, -, hi⟩ := List.mem_map.mp (List.mem_of_mem_filter hmem)
    exact @Shallow.set_leaf repo slots h tree l .note (onPath_concat (h.note _ _ hi)) (by simp)
  · cases heq

lemma logStack_keeps {index : Nat} (h : index < GIT_MAX_RAWSZ) : Keeps (fun _ => True) (logStack index) :=
  Relies.emit fun _ => ⟨h, trivial⟩

lemma buildStack_keeps {n : Nat} (h : n < GIT_MAX_RAWSZ) : Keeps (fun _ => True) (buildStack n) := by
  induction n with
  | zero => exact logStack_keeps h
  | succ n ih =>
    exact (ih (by omega)).bind fun _ _ => (logStack_keeps (by omega)).bind fun _ _ => logStack_keeps h

lemma unwindStack_keeps {key : List UInt8} {n : Nat} (hn : n < GIT_MAX_RAWSZ) {slots : Slots} (h : Shallow repo slots) :
    Keeps (Shallow repo) (unwindStack key n slots) := by
  induction n generalizing slots with
  | zero => exact Relies.pure h
  | succ n ih =>
    refine (logStack_keeps hn).bind fun _ _ => (logStack_keeps (by omega)).bind fun _ _ => ?_
    cases heq : noteTreeConsolidate slots (keyPath key (n + 1)) with
    | none => exact Relies.pure h
    | some slots' => exact ih (by omega) (h.consolidate heq)

lemma length_hexToBytes {len : Nat} {hex bytes : List UInt8} (h : hexToBytes len hex = some bytes) : bytes.length = len := by
  induction len generalizing hex bytes with
  | zero =>
    obtain rfl : bytes = [] := by simpa [hexToBytes, eq_comm] using h
    rfl
  | succ len ih =>
    match hex with
    | [] => simp [hexToBytes] at h
    | [a] => simp [hexToBytes] at h
    | a :: b :: hex =>
      simp only [hexToBytes, Option.bind_eq_bind, Option.bind_eq_some_iff, Option.some.injEq] at h
      obtain ⟨high, -, low, -, rest, hrest, rfl⟩ := h
      rw [List.length_cons, ih hrest]

lemma leafOf_spec {subtree l : LeafNode} {entry : NameEntry} {type : LeafType}
    (h : leafOf repo subtree entry = some (l, type)) (hkey : subtree.keyOid.length = repo.rawsz)
    (hlen : prefixLen repo subtree < repo.rawsz) :
    l.keyOid.length = repo.rawsz ∧
      l.keyOid.take (prefixLen repo subtree) = subtree.keyOid.take (prefixLen repo subtree) := by
  have hfront : (subtree.keyOid.take (prefixLen repo subtree)).length = prefixLen repo subtree := by
    rw [List.length_take, hkey, Nat.min_eq_left hlen.le]
  have htake : ∀ rest, (subtree.keyOid.take (prefixLen repo subtree) ++ rest).take (prefixLen repo subtree) =
      subtree.keyOid.take (prefixLen repo subtree) := fun rest => List.take_left' hfront
  rw [leafOf] at h
  split at h
  · split at h
    · rw [Option.map_eq_some_iff] at h
      obtain ⟨bytes, hbytes, hl⟩ := h
      simp only [Prod.mk.injEq] at hl
      rw [← hl.1]
      refine ⟨?_, htake bytes⟩
      rw [List.length_append, hfront, length_hexToBytes hbytes]
      omega
    · cases h
  · rename_i hname
    split at h
    · rename_i htwo
      split at h
      · rw [Option.map_eq_some_iff] at h
        obtain ⟨bytes, hbytes, hl⟩ := h
        simp only [Prod.mk.injEq] at hl
        rw [← hl.1]
        refine ⟨?_, by simpa only [List.append_assoc] using htake _⟩
        simp only [List.length_append, hfront, length_hexToBytes hbytes, List.length_replicate, List.length_singleton]
        omega
      · cases h
    · cases h

structure KeepsAt (repo : Repository) (fuel : Nat) : Prop where
  search : ∀ slots tree key, Shallow repo slots → Reaches key tree →
    Keeps (fun r => Shallow repo r.1 ∧ Reaches key r.2) (noteTreeSearch repo fuel slots tree key)
  remove : ∀ slots tree entry, Shallow repo slots → Reaches entry.keyOid tree →
    Keeps (fun r => Shallow repo r.1) (noteTreeRemove repo fuel slots tree entry)
  insert : ∀ slots tree entry type combineNotes, Shallow repo slots → Reaches entry.keyOid tree →
    (type = .subtree → entry.keyOid.length = repo.rawsz) →
    Keeps (fun r => Shallow repo r.1) (noteTreeInsert repo fuel slots tree entry type combineNotes)
  split : ∀ slots tree l leafType entry type combineNotes, Shallow repo slots → Reaches entry.keyOid tree →
    slots (slotOf tree entry.keyOid) = setPtrType l leafType →
    (type = .subtree → entry.keyOid.length = repo.rawsz) →
    Keeps (fun r => Shallow repo r.1) (splitLeaf repo fuel slots tree l leafType entry type combineNotes)
  load : ∀ slots subtree node, Shallow repo slots → Reaches subtree.keyOid node →
    subtree.keyOid.length = repo.rawsz → Keeps (Shallow repo) (loadSubtree repo fuel slots subtree node)

lemma matchingSubtree_some {slot : Path} {key : List UInt8} {l : LeafNode}
    (h : matchingSubtree repo slots slot key = some l) : slots slot = .subtree l := by
  rw [matchingSubtree] at h
  split at h
  · rename_i l' hl'
    split at h
    · rw [hl', Option.some_inj.mp h]
    · cases h
  · cases h

lemma Shallow.reaches_of_subtree (h : Shallow repo slots) {key : List UInt8} {tree : Path} {i : Fin 16}
    {l : LeafNode} (hl : slots (tree ++ [i]) = .subtree l) (htree : Reaches key tree) :
    Reaches l.keyOid tree ∧ l.keyOid.length = repo.rawsz :=
  ⟨⟨onPath_concat (h.subtree _ _ hl).1, htree.length⟩, (h.subtree _ _ hl).2⟩

variable {fuel : Nat}

lemma search_keeps (ih : KeepsAt repo fuel) {slots : Slots} {tree : Path} {key : List UInt8}
    (h : Shallow repo slots) (htree : Reaches key tree) :
    Keeps (fun r => Shallow repo r.1 ∧ Reaches key r.2) (noteTreeSearch repo (fuel + 1) slots tree key) := by
  have hunpack : ∀ i l, slots (tree ++ [i]) = .subtree l →
      Keeps (fun r => Shallow repo r.1 ∧ Reaches key r.2) (do
        let slots ← loadSubtree repo fuel (Function.update slots (tree ++ [i]) .null) l tree
        noteTreeSearch repo fuel slots tree key) := by
    intro i l hl
    obtain ⟨hreach, hlen⟩ := h.reaches_of_subtree hl htree
    exact (ih.load _ l tree (h.set_null _) hreach hlen).bind fun slots hslots => ih.search slots tree key hslots htree
  rw [noteTreeSearch]
  split
  · rename_i l hl
    exact hunpack 0 l (matchingSubtree_some hl)
  · dsimp only
    split
    · rename_i hinternal
      exact ih.search slots _ key h ⟨htree.onPath.slotOf, h.internal _ hinternal⟩
    · split
      · rename_i l hl
        exact hunpack _ l (matchingSubtree_some hl)
      · exact Relies.pure ⟨h, htree⟩

lemma remove_keeps (ih : KeepsAt repo fuel) {slots : Slots} {tree : Path} {entry : LeafNode}
    (h : Shallow repo slots) (htree : Reaches entry.keyOid tree) :
    Keeps (fun r => Shallow repo r.1) (noteTreeRemove repo (fuel + 1) slots tree entry) := by
  rw [noteTreeRemove]
  refine (ih.search slots tree entry.keyOid h htree).bind fun r hr => ?_
  obtain ⟨slots, tree⟩ := r
  obtain ⟨hslots, hreach⟩ := hr
  dsimp only at hslots hreach ⊢
  split
  · split
    · split
      · exact Relies.pure (hslots.set_null _)
      · refine (buildStack_keeps hreach.length).bind fun _ _ => ?_
        split
        · refine (logStack_keeps hreach.length).bind fun _ _ => ?_
          exact (unwindStack_keeps hreach.length (hslots.set_null _)).bind fun slots hfinal => Relies.pure hfinal
        · exact Relies.fail
    · exact Relies.pure hslots
  · exact Relies.pure hslots

lemma insert_keeps (ih : KeepsAt repo fuel) {slots : Slots} {tree : Path} {entry : LeafNode}
    {type : LeafType} {combineNotes : CombineNotesFn} (h : Shallow repo slots) (htree : Reaches entry.keyOid tree)
    (htype : type = .subtree → entry.keyOid.length = repo.rawsz) :
    Keeps (fun r => Shallow repo r.1) (noteTreeInsert repo (fuel + 1) slots tree entry type combineNotes) := by
  rw [noteTreeInsert]
  refine (ih.search slots tree entry.keyOid h htree).bind fun r hr => ?_
  obtain ⟨slots, tree⟩ := r
  obtain ⟨hslots, hreach⟩ := hr
  dsimp only at hslots hreach ⊢
  split
  · refine Relies.pure ?_
    dsimp only
    split
    · exact hslots
    · exact hslots.set_leaf hreach.onPath.slotOf htype
  · rename_i l hl
    split
    · split
      · exact Relies.pure hslots
      · have hset : ∀ valOid, Shallow repo (Function.update slots (slotOf tree entry.keyOid) (.note { l with valOid := valOid })) :=
          fun valOid => @Shallow.set_leaf repo slots hslots _ { l with valOid := valOid } .note (hslots.note _ l hl) (by simp)
        split
        · exact (ih.remove _ _ _ (hset _) hreach).bind fun r hr => Relies.pure hr
        · exact Relies.pure (hset _)
    · split
      · rename_i hsubtree
        exact (ih.load _ _ _ hslots hreach (htype hsubtree.1)).bind fun slots hfinal => Relies.pure hfinal
      · exact ih.split _ _ _ _ _ _ _ hslots hreach hl htype
  · rename_i l hl
    split
    · obtain ⟨hl_reach, hl_len⟩ := hslots.reaches_of_subtree hl hreach
      exact (ih.load _ l tree (hslots.set_null _) hl_reach hl_len).bind fun slots hfinal =>
        ih.insert slots tree entry type combineNotes hfinal hreach htype
    · exact ih.split _ _ _ _ _ _ _ hslots hreach hl htype
  · exact Relies.fail

lemma Shallow.leaf (h : Shallow repo slots) {slot : Path} {l : LeafNode} {type : LeafType}
    (hl : slots slot = setPtrType l type) :
    OnPath l.keyOid slot ∧ (type = .subtree → l.keyOid.length = repo.rawsz) := by
  cases type with
  | note => exact ⟨h.note _ _ hl, fun hne => by cases hne⟩
  | subtree => exact ⟨(h.subtree _ _ hl).1, fun _ => (h.subtree _ _ hl).2⟩

lemma split_keeps (ih : KeepsAt repo fuel) {slots : Slots} {tree : Path} {l entry : LeafNode}
    {leafType type : LeafType} {combineNotes : CombineNotesFn} (h : Shallow repo slots)
    (htree : Reaches entry.keyOid tree) (hl : slots (slotOf tree entry.keyOid) = setPtrType l leafType)
    (htype : type = .subtree → entry.keyOid.length = repo.rawsz) :
    Keeps (fun r => Shallow repo r.1) (splitLeaf repo (fuel + 1) slots tree l leafType entry type combineNotes) := by
  obtain ⟨hpath, hlen⟩ := h.leaf hl
  have hentry := htree.onPath.slotOf
  rw [splitLeaf]
  split
  · exact Relies.pure h
  · have hemit : Keeps (fun _ => Apart l.keyOid entry.keyOid) (Traced.emit (.split l entry) ()) :=
      Relies.emit fun hapart => ⟨trivial, hapart⟩
    refine hemit.bind fun _ hapart => ?_
    have hshort := hapart.length_lt hpath hentry
    refine (ih.insert _ _ l leafType _ (h.calloc _) ⟨hpath, hshort⟩ hlen).bind fun r hr => ?_
    obtain ⟨slots, ret⟩ := r
    dsimp only at hr ⊢
    split
    · exact Relies.pure hr
    · exact ih.insert _ _ entry type _ (hr.set_internal hshort) ⟨hentry, hshort⟩ htype

lemma load_keeps (ih : KeepsAt repo fuel) {slots : Slots} {subtree : LeafNode} {node : Path}
    (h : Shallow repo slots) (hnode : Reaches subtree.keyOid node) (hkey : subtree.keyOid.length = repo.rawsz) :
    Keeps (Shallow repo) (loadSubtree repo (fuel + 1) slots subtree node) := by
  rw [loadSubtree]
  split
  · exact Relies.fail
  · rename_i entries hentries
    dsimp only
    split
    · exact Relies.fail
    · rename_i hlen
      split
      · exact Relies.fail
      · rename_i hshort
        refine Relies.foldlM (fun slots entry _ hslots => ?_) h
        split
        · exact Relies.pure hslots
        · rename_i l type hl
          obtain ⟨hl_len, hl_take⟩ := leafOf_spec hl hkey (by omega)
          have hl_path : OnPath l.keyOid node := by
            rw [OnPath, ← hnode.onPath, length_keyPath, keyPath_eq_iff]
            exact fun i hi => getNibble_congr hl_take (by omega)
          refine (ih.insert slots node l type _ hslots ⟨hl_path, hnode.length⟩ fun _ => hl_len).bind fun r hr => ?_
          obtain ⟨slots, ret⟩ := r
          dsimp only at hr ⊢
          split
          · exact Relies.fail
          · exact Relies.pure hr

lemma keepsAt (repo : Repository) (fuel : Nat) : KeepsAt repo fuel := by
  induction fuel with
  | zero =>
    constructor <;> intros
    · rw [noteTreeSearch]; exact Relies.fail
    · rw [noteTreeRemove]; exact Relies.fail
    · rw [noteTreeInsert]; exact Relies.fail
    · rw [splitLeaf]; exact Relies.fail
    · rw [loadSubtree]; exact Relies.fail
  | succ fuel ih =>
    exact ⟨fun _ _ _ => search_keeps ih, fun _ _ _ => remove_keeps ih, fun _ _ _ _ _ => insert_keeps ih,
      fun _ _ _ _ _ _ _ => split_keeps ih, fun _ _ _ => load_keeps ih⟩

lemma reaches_root (key : List UInt8) : Reaches key [] := ⟨rfl, by decide⟩

lemma runOp_keeps {slots : Slots} (op : NotesOp) (h : Shallow repo slots) :
    Keeps (Shallow repo) (runOp repo fuel slots op) := by
  have hkeeps := keepsAt repo fuel
  cases op with
  | addNote objectOid noteOid combineNotes =>
    exact (hkeeps.insert slots [] ⟨objectOid, noteOid⟩ .note combineNotes h (reaches_root _) (by simp)).bind
      fun r hr => Relies.pure hr
  | removeNote objectSha1 =>
    exact (hkeeps.remove slots [] ⟨objectSha1, _⟩ h (reaches_root _)).bind fun r hr => Relies.pure hr
  | getNote oid => exact (hkeeps.search slots [] oid h (reaches_root _)).bind fun r hr => Relies.pure hr.1
  | unpack tree i =>
    rw [runOp]
    split
    · rename_i hnode
      have hshort : tree.length < GIT_MAX_RAWSZ := by
        rcases hnode with rfl | hinternal
        · decide
        · exact h.internal _ hinternal
      split
      · rename_i l hl
        obtain ⟨hpath, hlen⟩ := h.subtree _ _ hl
        exact hkeeps.load _ l tree (h.set_null _) ⟨onPath_concat hpath, hshort⟩ hlen
      · exact Relies.pure h
    · exact Relies.pure h

lemma initNotes_keeps (fuel : Nat) (tree : List UInt8) : Keeps (Shallow repo) (initNotes repo fuel tree) := by
  refine (keepsAt repo fuel).load _ ⟨_, tree⟩ [] ?_ (reaches_root _) (by simp)
  exact ⟨by simp, by simp, by simp⟩

/-- Where every two leaves that are put below a new node differ in one of the first `GIT_MAX_RAWSZ` nibbles of
their keys, every index into `parent_stack` is inside the array. -/
theorem runNotes_inside (repo : Repository) (fuel : Nat) (tree : List UInt8) (ops : List NotesOp)
    (h : ∀ l entry, .split l entry ∈ (runNotes repo fuel tree ops).log → Apart l.keyOid entry.keyOid) :
    ∀ index, .parentStack index ∈ (runNotes repo fuel tree ops).log → index < GIT_MAX_RAWSZ := by
  have hkeeps : Keeps (Shallow repo) (runNotes repo fuel tree ops) :=
    (initNotes_keeps fuel tree).bind fun slots hslots =>
      Relies.foldlM (fun slots op _ hslots => runOp_keeps op hslots) hslots
  have hinside := (hkeeps fun event hevent => ?_).1
  · exact fun index hindex => hinside _ hindex
  · cases event with
    | parentStack index => trivial
    | split l entry => exact h l entry hevent

def NoSubtree (slots : Slots) : Prop := ∀ q l, slots q ≠ .subtree l

lemma NoSubtree.matching (h : NoSubtree slots) (slot : Path) (key : List UInt8) :
    matchingSubtree repo slots slot key = none := by
  cases hslot : matchingSubtree repo slots slot key with
  | none => rfl
  | some l => exact absurd (matchingSubtree_some hslot) (h slot l)

lemma NoSubtree.update (h : NoSubtree slots) {slot : Path} {ptr : Ptr} (hptr : ∀ l, ptr ≠ .subtree l) :
    NoSubtree (Function.update slots slot ptr) := by
  intro q l
  rw [Function.update_apply]
  split
  · exact hptr l
  · exact h q l

lemma NoSubtree.calloc (h : NoSubtree slots) (node : Path) : NoSubtree (callocNode slots node) := by
  intro q l
  rw [callocNode]
  split
  · simp
  · exact h q l

lemma search_stop (h : NoSubtree slots) {tree : Path} {key : List UInt8}
    (hslot : slots (slotOf tree key) ≠ .internal) (fuel : Nat) :
    noteTreeSearch repo (fuel + 1) slots tree key = pure (slots, tree) := by
  simp only [noteTreeSearch, h.matching, if_neg hslot]

lemma slotOf_keyPath (key : List UInt8) (n : Nat) : slotOf (keyPath key n) key = keyPath key (n + 1) := by
  rw [slotOf, length_keyPath, keyPath_succ]

lemma search_chain (h : NoSubtree slots) {key : List UInt8} (m : Nat) {n : Nat} (fuel : Nat)
    (hnodes : ∀ i, n < i → i ≤ n + m → slots (keyPath key i) = .internal)
    (hend : slots (keyPath key (n + m + 1)) ≠ .internal) :
    noteTreeSearch repo (fuel + m + 1) slots (keyPath key n) key = pure (slots, keyPath key (n + m)) := by
  induction m generalizing n with
  | zero => exact search_stop h (by rwa [slotOf_keyPath]) fuel
  | succ m ih =>
    have hfirst : slots (slotOf (keyPath key n) key) = .internal := by
      rw [slotOf_keyPath]
      exact hnodes (n + 1) (by omega) (by omega)
    have hrest := ih (n := n + 1) (fun i hi hle => hnodes i (by omega) (by omega)) (by
      rw [show n + 1 + m + 1 = n + (m + 1) + 1 by omega]
      exact hend)
    rw [show fuel + (m + 1) + 1 = (fuel + m + 1) + 1 by omega, noteTreeSearch]
    rw [h.matching]
    dsimp only
    rw [if_pos hfirst, slotOf_keyPath, hrest, show n + 1 + m = n + (m + 1) by omega]

lemma insert_null (h : NoSubtree slots) {tree : Path} {entry : LeafNode} (combineNotes : CombineNotesFn)
    (hslot : slots (slotOf tree entry.keyOid) = .null) (hval : isNullOid entry.valOid = false) (fuel : Nat) :
    noteTreeInsert repo (fuel + 2) slots tree entry .note combineNotes =
      pure (Function.update slots (slotOf tree entry.keyOid) (.note entry), 0) := by
  rw [noteTreeInsert, search_stop h (by simp [hslot]), Traced.pure_bind_eq]
  simp only [hslot, hval]
  rfl

def splitSlots (slots : Slots) (newNode : Path) (l : LeafNode) : Slots :=
  Function.update (Function.update (callocNode slots newNode) (slotOf newNode l.keyOid) (.note l)) newNode .internal

lemma insert_split (h : NoSubtree slots) {tree : Path} {l entry : LeafNode} (combineNotes : CombineNotesFn)
    (hslot : slots (slotOf tree entry.keyOid) = .note l) (hne : l.keyOid ≠ entry.keyOid)
    (hl : isNullOid l.valOid = false) (hval : isNullOid entry.valOid = false) (fuel : Nat) :
    noteTreeInsert repo (fuel + 4) slots tree entry .note combineNotes =
      Traced.emit (.split l entry) () >>= fun _ => noteTreeInsert repo (fuel + 2)
        (splitSlots slots (slotOf tree entry.keyOid) l) (slotOf tree entry.keyOid) entry .note combineNotes := by
  have hcalloc : callocNode slots (slotOf tree entry.keyOid) (slotOf (slotOf tree entry.keyOid) l.keyOid) = .null := by
    rw [callocNode, if_pos ⟨by simp [slotOf], by simp [slotOf]⟩]
  have hinsert := @insert_null repo (callocNode slots (slotOf tree entry.keyOid)) (h.calloc _) (slotOf tree entry.keyOid)
    l combineNotes hcalloc hl fuel
  rw [noteTreeInsert, search_stop h (by simp [hslot]), Traced.pure_bind_eq]
  simp only [hslot]
  rw [if_neg (by simp [hne]), if_neg (by simp), splitLeaf, hval]
  dsimp only
  rw [hinsert]
  rfl

lemma insert_chain (m : Nat) {n : Nat} {slots : Slots} (h : NoSubtree slots) {l entry : LeafNode}
    (combineNotes : CombineNotesFn) (hl : isNullOid l.valOid = false) (hval : isNullOid entry.valOid = false)
    (hsame : keyPath l.keyOid (n + m) = keyPath entry.keyOid (n + m))
    (hdiff : getNibble (n + m) l.keyOid ≠ getNibble (n + m) entry.keyOid)
    (hnote : slots (keyPath l.keyOid (n + 1)) = .note l)
    (hnull : ∀ i, i ≠ getNibble n l.keyOid → slots (keyPath l.keyOid n ++ [i]) = .null) (fuel : Nat) :
    ∃ log final, noteTreeInsert repo (fuel + 2 * m + 2) slots (keyPath l.keyOid n) entry .note combineNotes =
        ⟨log, .ok (final, 0)⟩ ∧ NoSubtree final ∧
      (∀ q, (∀ i, ¬keyPath l.keyOid n ++ [i] <+: q) → final q = slots q) ∧
      (∀ i, n < i → i ≤ n + m → final (keyPath l.keyOid i) = .internal) ∧
      final (keyPath l.keyOid (n + m + 1)) = .note l := by
  have hne : l.keyOid ≠ entry.keyOid := fun heq => hdiff (by rw [heq])
  induction m generalizing n slots with
  | zero =>
    have hslot : slotOf (keyPath l.keyOid n) entry.keyOid = keyPath l.keyOid n ++ [getNibble n entry.keyOid] := by
      rw [slotOf, length_keyPath]
    have hempty : slots (slotOf (keyPath l.keyOid n) entry.keyOid) = .null := by
      rw [hslot]
      exact hnull _ (Ne.symm hdiff)
    refine ⟨[], _, insert_null h combineNotes hempty hval fuel, h.update (by simp), ?_, fun i hi hle => by omega, ?_⟩
    · intro q hq
      rw [Function.update_of_ne]
      rintro rfl
      exact hq _ (by rw [hslot])
    · rw [Function.update_of_ne]
      · exact hnote
      · rw [hslot, keyPath_succ]
        exact fun heq => hdiff (by simpa using heq)
  | succ m ih =>
    have hnibble : getNibble n l.keyOid = getNibble n entry.keyOid := keyPath_eq_iff.mp hsame n (by omega)
    have hslot : slotOf (keyPath l.keyOid n) entry.keyOid = keyPath l.keyOid (n + 1) := by
      rw [slotOf, length_keyPath, keyPath_succ, hnibble]
    have hsplit := @insert_split repo _ h _ _ _ combineNotes (by rw [hslot]; exact hnote) hne hl hval (fuel + 2 * m)
    rw [hslot] at hsplit
    have hnext : slotOf (keyPath l.keyOid (n + 1)) l.keyOid = keyPath l.keyOid (n + 2) := slotOf_keyPath _ _
    have hlonger : keyPath l.keyOid (n + 2) ≠ keyPath l.keyOid (n + 1) := fun heq => by
      simpa using congrArg List.length heq
    obtain ⟨log, final, hinsert, hfinal, hframe, hnodes, hlast⟩ := @ih (n + 1)
      (splitSlots slots (keyPath l.keyOid (n + 1)) l)
      (((h.calloc _).update (by simp)).update (by simp)) (by rwa [Nat.add_right_comm, Nat.add_assoc])
      (by rwa [Nat.add_right_comm, Nat.add_assoc])
      (by rw [splitSlots, Function.update_of_ne hlonger, hnext, Function.update_self])
      (fun i hi => by
        rw [splitSlots, Function.update_of_ne (by simp), hnext, Function.update_of_ne, callocNode,
          if_pos ⟨by simp, by simp⟩]
        rw [keyPath_succ l.keyOid (n + 1)]
        exact fun heq => hi (by simpa using heq))
    refine ⟨.split l entry :: log, final, ?_, hfinal, ?_, ?_, ?_⟩
    · rw [show fuel + 2 * (m + 1) + 2 = fuel + 2 * m + 4 by omega, hsplit, hinsert]
      rfl
    · intro q hq
      have hbelow : ∀ i, ¬keyPath l.keyOid (n + 1) ++ [i] <+: q := fun i hi => by
        refine hq (getNibble n l.keyOid) (List.IsPrefix.trans ?_ hi)
        rw [keyPath_succ]
        exact List.prefix_append _ _
      have hnode : ¬keyPath l.keyOid (n + 1) <+: q := by
        rw [keyPath_succ]
        exact hq _
      rw [hframe q hbelow, splitSlots, Function.update_of_ne, Function.update_of_ne, callocNode, if_neg]
      · exact fun hbelow => hnode (by simpa using hbelow.1)
      · rintro rfl
        exact hnode (List.prefix_append _ _)
      · rintro rfl
        exact hnode (List.prefix_rfl)
    · intro i hi hle
      rcases Nat.lt_or_ge (n + 1) i with hlt | hge
      · exact hnodes i hlt (by omega)
      · obtain rfl : i = n + 1 := by omega
        rw [hframe, splitSlots, Function.update_self]
        intro j hj
        have := hj.length_le
        simp at this
    · rw [← hlast]
      congr 2
      omega

lemma initNotes_chain {tree : List UInt8} {first second : NameEntry} {l entry : LeafNode} {n : Nat}
    (htree : repo.fillTreeDescriptor tree = some [first, second]) (hrawsz : 0 < repo.rawsz)
    (hfirst : leafOf repo ⟨List.replicate repo.rawsz 0, tree⟩ first = some (l, .note))
    (hsecond : leafOf repo ⟨List.replicate repo.rawsz 0, tree⟩ second = some (entry, .note))
    (hl : isNullOid l.valOid = false) (hval : isNullOid entry.valOid = false)
    (hsame : keyPath l.keyOid n = keyPath entry.keyOid n) (hdiff : getNibble n l.keyOid ≠ getNibble n entry.keyOid)
    (fuel : Nat) :
    ∃ final, (initNotes repo (fuel + 2 * n + 3) tree).result = .ok final ∧ NoSubtree final ∧
      (∀ i, 0 < i → i ≤ n → final (keyPath l.keyOid i) = .internal) ∧ final (keyPath l.keyOid (n + 1)) = .note l := by
  have hempty : NoSubtree fun _ => .null := fun q l => by simp
  have hstore := @insert_null repo (fun _ => .null) hempty [] l repo.combineNotesConcatenate rfl hl (fuel + 2 * n)
  have hslot : slotOf [] l.keyOid = keyPath l.keyOid 1 := rfl
  rw [hslot] at hstore
  obtain ⟨log, final, hinsert, hfinal, -, hnodes, hlast⟩ := @insert_chain repo n 0
    (Function.update (fun _ => .null) (keyPath l.keyOid 1) (.note l)) (hempty.update (by simp)) l entry
    repo.combineNotesConcatenate hl hval (by rwa [Nat.zero_add]) (by rwa [Nat.zero_add])
    (Function.update_self _ _ _) (fun i hi => by
      rw [Function.update_of_ne]
      rw [keyPath_succ]
      exact fun heq => hi (by simpa using heq)) fuel
  rw [Nat.zero_add] at hnodes hlast
  refine ⟨final, ?_, hfinal, hnodes, hlast⟩
  have hlen : prefixLen repo ⟨List.replicate repo.rawsz 0, tree⟩ = 0 := by
    rw [prefixLen, List.getD_eq_getElem?_getD, List.getElem?_replicate]
    split <;> rfl
  have hroot : keyPath l.keyOid 0 = [] := rfl
  rw [hroot] at hinsert
  rw [initNotes, loadSubtree, htree]
  dsimp only
  rw [hlen, if_neg (by omega), if_neg (by simp)]
  simp only [List.foldlM_cons, List.foldlM_nil, hfirst, hsecond, hstore, Traced.pure_bind_eq]
  rw [if_neg (by simp), Traced.pure_bind_eq, hinsert]
  rfl

lemma buildStack_result (n : Nat) : (buildStack n).result = .ok () := by
  induction n with
  | zero => rfl
  | succ n ih =>
    rw [buildStack, Traced.bind_result_ok ih]
    rfl

lemma buildStack_log {n : Nat} (hn : 0 < n) : .parentStack n ∈ (buildStack n).log := by
  obtain ⟨n, rfl⟩ := Nat.exists_eq_succ_of_ne_zero hn.ne'
  refine Traced.mem_bind_log_right (buildStack_result n) ?_
  exact Traced.mem_bind_log_right (a := ()) rfl (by simp [logStack])

lemma remove_log (h : NoSubtree slots) {l entry : LeafNode} {n : Nat} (hn : 0 < n)
    (hkey : entry.keyOid = l.keyOid) (hnodes : ∀ i, 0 < i → i ≤ n → slots (keyPath l.keyOid i) = .internal)
    (hnote : slots (keyPath l.keyOid (n + 1)) = .note l) (fuel : Nat) :
    .parentStack n ∈ (noteTreeRemove repo (fuel + n + 2) slots [] entry).log := by
  have hsearch := @search_chain repo _ h l.keyOid n 0 fuel (fun i hi hle => hnodes i hi (by omega))
    (by rw [Nat.zero_add, hnote]; simp)
  rw [Nat.zero_add] at hsearch
  have hroot : keyPath l.keyOid 0 = [] := rfl
  rw [hroot] at hsearch
  rw [noteTreeRemove, hkey, hsearch, Traced.pure_bind_eq]
  dsimp only
  rw [slotOf_keyPath, hnote]
  dsimp only
  rw [if_pos rfl, length_keyPath, if_neg (by omega)]
  exact Traced.mem_bind_log (buildStack_log hn)

theorem parentStack_mem_log {tree : List UInt8} {first second : NameEntry} {l entry : LeafNode} {n : Nat} (hn : 0 < n)
    (htree : repo.fillTreeDescriptor tree = some [first, second]) (hrawsz : 0 < repo.rawsz)
    (hfirst : leafOf repo ⟨List.replicate repo.rawsz 0, tree⟩ first = some (l, .note))
    (hsecond : leafOf repo ⟨List.replicate repo.rawsz 0, tree⟩ second = some (entry, .note))
    (hl : isNullOid l.valOid = false) (hval : isNullOid entry.valOid = false)
    (hsame : keyPath l.keyOid n = keyPath entry.keyOid n) (hdiff : getNibble n l.keyOid ≠ getNibble n entry.keyOid)
    (fuel : Nat) :
    .parentStack n ∈ (runNotes repo (fuel + 2 * n + 3) tree [.removeNote l.keyOid]).log := by
  obtain ⟨final, hinit, hfinal, hnodes, hnote⟩ :=
    initNotes_chain htree hrawsz hfirst hsecond hl hval hsame hdiff fuel
  rw [runNotes]
  refine Traced.mem_bind_log_right hinit ?_
  rw [List.foldlM_cons]
  refine Traced.mem_bind_log ?_
  rw [runOp]
  refine Traced.mem_bind_log ?_
  rw [show fuel + 2 * n + 3 = (fuel + n + 1) + n + 2 by omega]
  exact remove_log hfinal hn rfl hnodes hnote _

def notesOf (rawsz : Nat) (names : List (List UInt8)) : Repository where
  rawsz := rawsz
  fillTreeDescriptor _ := some (names.map fun name => ⟨0o100644, name, List.replicate rawsz 1⟩)
  combineNotesConcatenate cur _ := (0, cur)

def lowName (digit : UInt8) : List UInt8 := List.replicate 39 0x30 ++ [digit]

/-- The notes for two objects whose ids differ in their last digit lead to an index behind the array. -/
theorem runNotes_outside :
    ¬∀ (repo : Repository) (fuel : Nat) (tree : List UInt8) (ops : List NotesOp),
      repo.rawsz = 20 ∨ repo.rawsz = GIT_MAX_RAWSZ →
        ∀ index, .parentStack index ∈ (runNotes repo fuel tree ops).log → index < GIT_MAX_RAWSZ := by
  intro hall
  have hindex := @parentStack_mem_log (notesOf 20 [lowName 0x31, lowName 0x32]) [1] _ _
    ⟨List.replicate 19 0 ++ [1], List.replicate 20 1⟩ ⟨List.replicate 19 0 ++ [2], List.replicate 20 1⟩ 39 (by norm_num)
    rfl (by decide) (by decide) (by decide) (by decide) (by decide) (by decide) (by decide) 0
  exact absurd (hall _ _ _ _ (.inl rfl) _ hindex) (by decide)

theorem runNotes_inside_second :
    ¬∃ index, .parentStack index ∈ (runNotes (notesOf 20 [[0x30, 0x31] ++ List.replicate 38 0x30, [0x30, 0x32] ++
      List.replicate 38 0x30]) 6 [1] [.removeNote (1 :: List.replicate 19 0)]).log ∧ GIT_MAX_RAWSZ ≤ index := by
  rintro ⟨index, hindex, hge⟩
  have hlog : ∀ event ∈ (runNotes (notesOf 20 [[0x30, 0x31] ++ List.replicate 38 0x30, [0x30, 0x32] ++
      List.replicate 38 0x30]) 6 [1] [.removeNote (1 :: List.replicate 19 0)]).log, event.SplitsApart := by
    decide +kernel
  exact absurd (runNotes_inside _ _ _ _ (fun l entry hsplit => hlog _ hsplit) index hindex) (not_lt.mpr hge)

end GitCore.Notes
