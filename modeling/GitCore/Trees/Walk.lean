import Mathlib.Data.Int.Bitwise
import GitCore.Lib.Loop
import GitCore.Index.AddSpec
import GitCore.Lib.Segment

/-!
# Walking several trees at once

`traverse_trees` of `tree-walk.c` without a pathspec, on trees whose entries are decoded. An entry
is known by its place in the tree object, as the source knows it by the address of its name.
-/

namespace GitCore.Trees

open Index (nameCompare slash)

def S_IFMT : Nat := 0o170000

def S_IFDIR : Nat := 0o040000

def isDir (mode : Nat) : Bool := mode &&& S_IFMT = S_IFDIR

structure TreeEntry where
  path : List UInt8
  mode : Nat
  oid : List UInt8
  deriving DecidableEq

structure NameEntry where
  pos : Nat
  path : List UInt8
  mode : Nat
  oid : List UInt8
  deriving DecidableEq

def treeDescFrom : Nat → List TreeEntry → List NameEntry
  | _, [] => []
  | pos, e :: rest => ⟨pos, e.path, e.mode, e.oid⟩ :: treeDescFrom (pos + 1) rest

/-- The byte behind the common part of two names, where a directory ends in a slash. -/
def endByte : List UInt8 → Nat → UInt8
  | [], mode => if isDir mode then slash else 0
  | c :: _, mode => if c = 0 ∧ isDir mode then slash else c

def baseNameCompare : List UInt8 → Nat → List UInt8 → Nat → Int
  | a :: name1, mode1, b :: name2, mode2 =>
    if a < b then -1 else if b < a then 1 else baseNameCompare name1 mode1 name2 mode2
  | name1, mode1, name2, mode2 =>
    if endByte name1 mode1 < endByte name2 mode2 then -1
    else if endByte name2 mode2 < endByte name1 mode1 then 1
    else 0

def checkEntryMatch (a b : List UInt8) : Int :=
  let cmp := nameCompare a b
  if cmp = 0 then 0
  else if 0 < cmp then 1
  else if a.length < b.length ∧ a = b.take a.length ∧ b.getD a.length 0 < slash then 1
  else -1

/-- `struct tree_desc_x`: the entries that are left, and those of them that were returned early. -/
structure TreeDescX where
  d : List NameEntry
  skip : List Nat

/-- The loop of `extended_entry_extract` over the entries that were returned before. -/
def dropProcessed (skip : List Nat) : List NameEntry → List NameEntry
  | [] => []
  | a :: rest => if a.pos ∈ skip then dropProcessed skip rest else a :: rest

/-- The look-ahead of `extended_entry_extract` for the name `first`. -/
def lookAhead (first : List UInt8) : List NameEntry → Option NameEntry
  | [] => none
  | a :: rest =>
    if checkEntryMatch first a.path = -1 then none
    else if checkEntryMatch first a.path = 0 then some a
    else lookAhead first rest

def extendedEntryExtract (t : TreeDescX) (first : Option (List UInt8)) : TreeDescX × Option NameEntry :=
  let t := { t with d := dropProcessed t.skip t.d }
  match first with
  | none => (t, t.d.head?)
  | some first => (t, lookAhead first t.d)

def updateExtendedEntry (t : TreeDescX) (a : NameEntry) : TreeDescX :=
  if t.d.head?.map NameEntry.pos = some a.pos then { t with d := t.d.tail } else { t with skip := a.pos :: t.skip }

def maskOf (bits : List Bool) : Nat :=
  bits.zipIdx.foldl (fun mask b => if b.1 then mask ||| 1 <<< b.2 else mask) 0

structure Shown where
  mask : Nat
  dirmask : Nat
  entry : List (Option NameEntry)
  deriving DecidableEq

def smallerName (first : Option (List UInt8)) (e : Option NameEntry) : Option (List UInt8) :=
  match e, first with
  | none, first => first
  | some e, none => some e.path
  | some e, some first => if nameCompare e.path first < 0 then some e.path else some first

def firstName (entry : List (Option NameEntry)) : Option (List UInt8) :=
  entry.foldl smallerName none

/-- The entries and the trees after both passes of `extended_entry_extract`. -/
def extractEntries (tx : List TreeDescX) : List (TreeDescX × Option NameEntry) :=
  let tx := tx.map (fun t => extendedEntryExtract t none)
  match firstName (tx.map Prod.snd) with
  | none => tx
  | some first =>
    tx.map (fun t =>
      let (t, e) := extendedEntryExtract t.1 (some first)
      (t, e.filter (fun e => nameCompare e.path first = 0)))

def shownOf (entry : List (Option NameEntry)) : Shown where
  mask := maskOf (entry.map Option.isSome)
  dirmask := maskOf (entry.map (fun e => e.any (fun e => isDir e.mode)))
  entry := entry

/-- The loop of `traverse_trees` between two rounds. -/
structure WalkState where
  tx : List TreeDescX
  calls : List Shown
  ret : Int

/-- The last loop of a round, for tree `i`. -/
def updateTree (mask : Nat) (treesUsed : Int) (i : Nat) (t : TreeDescX × Option NameEntry) : TreeDescX :=
  match t.2 with
  | some e => if mask.testBit i && treesUsed.testBit i then updateExtendedEntry t.1 e else t.1
  | none => t.1

/-- One round of `traverse_trees`; the callback may look at what it was shown before. -/
def walkRound (fn : List Shown → Shown → Int) (showAllErrors : Bool) (s : WalkState) :
    WalkState ⊕ (Int × List Shown) :=
  let extracted := extractEntries s.tx
  let shown := shownOf (extracted.map Prod.snd)
  if shown.mask = 0 then .inr (s.ret, s.calls)
  else
    let treesUsed := fn s.calls shown
    let calls := s.calls ++ [shown]
    if treesUsed < 0 ∧ ¬showAllErrors then .inr (treesUsed, calls)
    else .inl {
      tx := extracted.zipIdx.map (fun t => updateTree shown.mask treesUsed t.2 t.1)
      calls := calls
      ret := if treesUsed < 0 then treesUsed else s.ret }

/-- `traverse_trees`, for at most `fuel` rounds: what it returns and what it showed to the callback. -/
def traverseTrees (curDepth maxAllowedTreeDepth : Int) (fn : List Shown → Shown → Int) (showAllErrors : Bool)
    (t : List (List TreeEntry)) (fuel : Nat) : Option (Int × List Shown) :=
  if maxAllowedTreeDepth < curDepth then some (-1, [])
  else runFor (walkRound fn showAllErrors) fuel ⟨t.map (fun entries => ⟨treeDescFrom 0 entries, []⟩), [], 0⟩

end GitCore.Trees

/-!
# Every name once

The look-ahead finds a name wherever it stands in a tree, and so each round of `traverse_trees` shows
one name from all trees that have it.
-/

namespace GitCore.Trees

open Index (nameCompare nameCompare_neg nameCompare_zero slash)

section Names

variable {name b : List UInt8} {modeB mode : Nat}

lemma endByte_nil_le (mode : Nat) : endByte [] mode ≤ slash := by
  rw [endByte]
  split_ifs
  · exact le_rfl
  · exact UInt8.zero_le

lemma lt_slash_of_endByte {c : UInt8} {rest : List UInt8} (h : endByte (c :: rest) mode < slash) : c < slash := by
  rw [endByte] at h
  split_ifs at h
  · exact absurd h (lt_irrefl _)
  · exact h

lemma checkEntryMatch_before (h : baseNameCompare b modeB name mode < 0) (hne : b ≠ name) :
    checkEntryMatch name b = 1 := by
  have hbehind : ¬name < b ∨ name.length < b.length ∧ name = b.take name.length ∧ b.getD name.length 0 < slash := by
    clear hne
    induction b, modeB, name, mode using baseNameCompare.induct with
    | case1 a s m1 c t m2 hlt => exact .inl (not_lt.mpr (List.cons_lt_cons_iff.mpr (.inl hlt)).le)
    | case2 a s m1 c t m2 hlt hgt => simp [baseNameCompare, hlt, hgt] at h
    | case3 a s m1 c t m2 hlt hgt ih =>
      obtain rfl : a = c := le_antisymm (not_lt.mp hgt) (not_lt.mp hlt)
      rw [baseNameCompare, if_neg hlt, if_neg hgt] at h
      obtain hle | ⟨hlen, htake, hbyte⟩ := ih h
      · exact .inl fun h' => hle (by simpa [List.cons_lt_cons_iff] using h')
      · refine .inr ⟨by simpa using hlen, ?_, by simpa using hbyte⟩
        rw [List.length_cons, List.take_succ_cons, ← htake]
    | case4 s m1 t m2 hcons hlt =>
      cases s with
      | nil => exact .inl (by simp)
      | cons a s =>
        cases t with
        | cons c t => exact (hcons a s c t rfl rfl).elim
        | nil => exact .inr ⟨by simp, by simp, by simpa using lt_slash_of_endByte (hlt.trans_le (endByte_nil_le m2))⟩
    | case5 s m1 t m2 hcons hlt hgt => simp [baseNameCompare, hlt, hgt] at h
    | case6 s m1 t m2 hcons hlt hgt => simp [baseNameCompare, hlt, hgt] at h
  unfold checkEntryMatch
  dsimp only
  rw [if_neg (fun h => hne (nameCompare_zero.mp h).symm)]
  split_ifs with hpos hcond
  · rfl
  · rfl
  · have hlt : name < b := nameCompare_neg.mp (lt_of_le_of_ne (not_lt.mp hpos) fun h => hne (nameCompare_zero.mp h).symm)
    exact absurd (hbehind.resolve_left (not_not.mpr hlt)) hcond

end Names

structure Canonical (tree : List TreeEntry) : Prop where
  sorted : tree.Pairwise (fun a b => baseNameCompare a.path a.mode b.path b.mode < 0)
  names : (tree.map TreeEntry.path).Nodup

structure CanonicalDesc (d : List NameEntry) : Prop where
  sorted : d.Pairwise (fun a b => baseNameCompare a.path a.mode b.path b.mode < 0)
  names : (d.map NameEntry.path).Nodup
  places : (d.map NameEntry.pos).Nodup

namespace CanonicalDesc

variable {d d' : List NameEntry}

lemma sublist (h : CanonicalDesc d) (hsub : d'.Sublist d) : CanonicalDesc d' :=
  ⟨h.sorted.sublist hsub, h.names.sublist (hsub.map _), h.places.sublist (hsub.map _)⟩

lemma tail {a : NameEntry} (h : CanonicalDesc (a :: d)) : CanonicalDesc d :=
  h.sublist (List.sublist_cons_self a d)

lemma eq_of_pos (h : CanonicalDesc d) {a b : NameEntry} (ha : a ∈ d) (hb : b ∈ d) (hpos : a.pos = b.pos) : a = b :=
  List.inj_on_of_nodup_map h.places ha hb hpos

lemma eq_of_path (h : CanonicalDesc d) {a b : NameEntry} (ha : a ∈ d) (hb : b ∈ d) (hpath : a.path = b.path) : a = b :=
  List.inj_on_of_nodup_map h.names ha hb hpath

end CanonicalDesc

lemma mem_treeDescFrom {tree : List TreeEntry} {pos : Nat} {a : NameEntry} (h : a ∈ treeDescFrom pos tree) :
    pos ≤ a.pos ∧ ⟨a.path, a.mode, a.oid⟩ ∈ tree := by
  induction tree generalizing pos with
  | nil => simp [treeDescFrom] at h
  | cons e rest ih =>
    rw [treeDescFrom] at h
    obtain rfl | h := List.mem_cons.mp h
    · exact ⟨le_rfl, List.mem_cons_self⟩
    · obtain ⟨hle, hmem⟩ := ih h
      exact ⟨by omega, List.mem_cons_of_mem _ hmem⟩

@[simp]
lemma map_path_treeDescFrom (tree : List TreeEntry) (pos : Nat) :
    (treeDescFrom pos tree).map NameEntry.path = tree.map TreeEntry.path := by
  induction tree generalizing pos with
  | nil => rfl
  | cons e rest ih => rw [treeDescFrom, List.map_cons, List.map_cons, ih]

lemma canonicalDesc_of_canonical {tree : List TreeEntry} (h : Canonical tree) (pos : Nat) :
    CanonicalDesc (treeDescFrom pos tree) := by
  refine ⟨?_, by rw [map_path_treeDescFrom]; exact h.names, ?_⟩
  · have hsorted := h.sorted
    clear h
    induction tree generalizing pos with
    | nil => exact .nil
    | cons e rest ih =>
      obtain ⟨hfirst, hsorted⟩ := List.pairwise_cons.mp hsorted
      exact List.pairwise_cons.mpr ⟨fun a ha => hfirst _ (mem_treeDescFrom ha).2, ih (pos + 1) hsorted⟩
  · clear h
    induction tree generalizing pos with
    | nil => exact .nil
    | cons e rest ih =>
      rw [treeDescFrom, List.map_cons, List.nodup_cons]
      refine ⟨fun hmem => ?_, ih (pos + 1)⟩
      obtain ⟨a, ha, hpos⟩ := List.mem_map.mp hmem
      have := (mem_treeDescFrom ha).1
      dsimp only at hpos
      omega

def entryOf (d : List NameEntry) (name : List UInt8) : Option NameEntry :=
  d.find? (fun a => a.path = name)

lemma lookAhead_eq {d : List NameEntry} (h : CanonicalDesc d) (first : List UInt8) :
    lookAhead first d = entryOf d first := by
  induction d with
  | nil => rfl
  | cons a rest ih =>
    rw [lookAhead, entryOf, List.find?_cons]
    have hzero : checkEntryMatch first a.path = 0 ↔ a.path = first := by
      have hname := @nameCompare_zero first a.path
      unfold checkEntryMatch
      dsimp only
      split_ifs with heq
      · exact ⟨fun _ => (hname.mp heq).symm, fun _ => rfl⟩
      all_goals exact ⟨fun h => absurd h (by decide), fun h => absurd (hname.mpr h.symm) heq⟩
    by_cases hpath : a.path = first
    · have hmatch := hzero.mpr hpath
      rw [if_neg (by rw [hmatch]; decide), if_pos hmatch]
      simp [hpath]
    · rw [if_neg (fun hmatch => hpath (hzero.mp hmatch)), ih h.tail]
      simp only [hpath, decide_false]
      split_ifs with hstop
      · -- an entry of the name behind would not have stopped the search
        symm
        refine List.find?_eq_none.mpr fun e he => ?_
        intro heq
        have heq : e.path = first := by simpa using heq
        have hbefore := List.rel_of_pairwise_cons h.sorted he
        rw [heq] at hbefore
        rw [checkEntryMatch_before hbefore hpath] at hstop
        exact absurd hstop (by decide)
      · rfl

lemma entryOf_eq_some {d : List NameEntry} {name : List UInt8} {a : NameEntry} (h : entryOf d name = some a) :
    a ∈ d ∧ a.path = name :=
  ⟨List.mem_of_find?_eq_some h, by simpa using List.find?_some h⟩

lemma entryOf_eq_none {d : List NameEntry} {name : List UInt8} : entryOf d name = none ↔ ∀ a ∈ d, a.path ≠ name := by
  simp [entryOf]

/-- The names that were shown are behind the tree's first entry left, or they are known to be. -/
structure TreeInv (names : List (List UInt8)) (desc : List NameEntry) (t : TreeDescX) : Prop where
  passed : ∃ passed, desc = passed ++ t.d ∧ ∀ a ∈ passed, a.path ∈ names
  skip : ∀ a ∈ t.d, a.pos ∈ t.skip ↔ a.path ∈ names

namespace TreeInv

variable {names : List (List UInt8)} {desc : List NameEntry} {t : TreeDescX} {first : List UInt8}

lemma sublist (h : TreeInv names desc t) : t.d.Sublist desc := by
  obtain ⟨passed, rfl, -⟩ := h.passed
  exact List.sublist_append_right passed t.d

lemma dropProcessed (h : TreeInv names desc t) :
    TreeInv names desc { t with d := dropProcessed t.skip t.d } ∧
      ∀ a ∈ (Trees.dropProcessed t.skip t.d).head?, a.path ∉ names := by
  obtain ⟨⟨passed, hdesc, hpassed⟩, hskip⟩ := h
  obtain ⟨d, skip⟩ := t
  dsimp only at *
  induction d generalizing passed with
  | nil => exact ⟨⟨⟨passed, hdesc, hpassed⟩, hskip⟩, by simp [Trees.dropProcessed]⟩
  | cons a rest ih =>
    obtain ⟨hfirst, hrest⟩ := List.forall_mem_cons.mp hskip
    rw [Trees.dropProcessed]
    split_ifs with hmem
    · refine ih (passed ++ [a]) ?_ hrest (by rw [hdesc, List.append_assoc, List.singleton_append])
      intro b hb
      obtain hb | hb := List.mem_append.mp hb
      · exact hpassed b hb
      · rw [List.mem_singleton.mp hb]
        exact hfirst.mp hmem
    · refine ⟨⟨⟨passed, hdesc, hpassed⟩, hskip⟩, fun b hb => ?_⟩
      obtain rfl : a = b := by simpa using hb
      exact fun h => hmem (hfirst.mpr h)

lemma entryOf_eq (h : TreeInv names desc t) (hfirst : first ∉ names) : entryOf t.d first = entryOf desc first := by
  obtain ⟨passed, rfl, hpassed⟩ := h.passed
  rw [entryOf, entryOf, List.find?_append]
  have hnone : passed.find? (fun a => a.path = first) = none := by
    refine List.find?_eq_none.mpr fun a ha heq => ?_
    have heq : a.path = first := by simpa using heq
    exact hfirst (heq ▸ hpassed a ha)
  rw [hnone, Option.none_or]

lemma update (h : TreeInv names desc t) (hdesc : CanonicalDesc desc) {a : NameEntry} (hfirst : first ∉ names)
    (ha : entryOf desc first = some a) : TreeInv (names ++ [first]) desc (updateExtendedEntry t a) := by
  have hd := hdesc.sublist h.sublist
  rw [← h.entryOf_eq hfirst] at ha
  obtain ⟨hmem, hpath⟩ := entryOf_eq_some ha
  obtain ⟨⟨passed, heq, hpassed⟩, hskip⟩ := h
  obtain ⟨d, skip⟩ := t
  dsimp only at *
  rw [updateExtendedEntry]
  split_ifs with hhead
  · cases d with
    | nil => simp at hmem
    | cons b rest =>
      obtain rfl : b = a := hd.eq_of_pos List.mem_cons_self hmem (by simpa using hhead)
      refine ⟨⟨passed ++ [b], by simp [heq], fun c hc => ?_⟩, fun c hc => ?_⟩
      · obtain hc | hc := List.mem_append.mp hc
        · exact List.mem_append_left _ (hpassed c hc)
        · rw [List.mem_singleton.mp hc, hpath]
          simp
      · have hne : c.path ≠ first := by
          intro hc'
          have hnot := (List.nodup_cons.mp hd.names).1
          exact hnot (List.mem_map.mpr ⟨c, hc, hc'.trans hpath.symm⟩)
        rw [List.mem_append, List.mem_singleton, or_iff_left hne]
        exact hskip c (List.mem_cons_of_mem _ hc)
  · refine ⟨⟨passed, heq, fun c hc => List.mem_append_left _ (hpassed c hc)⟩, fun c hc => ?_⟩
    have hsame : c.pos = a.pos ↔ c.path = first := by
      rw [← hpath]
      exact ⟨fun h => by rw [hd.eq_of_pos hc hmem h], fun h => by rw [hd.eq_of_path hc hmem h]⟩
    rw [List.mem_cons, List.mem_append, List.mem_singleton, hsame, hskip c hc, or_comm]

lemma keep (h : TreeInv names desc t) (hfirst : first ∉ names) (hnone : entryOf desc first = none) :
    TreeInv (names ++ [first]) desc t := by
  rw [← h.entryOf_eq hfirst, entryOf_eq_none] at hnone
  obtain ⟨⟨passed, heq, hpassed⟩, hskip⟩ := h
  refine ⟨⟨passed, heq, fun c hc => List.mem_append_left _ (hpassed c hc)⟩, fun c hc => ?_⟩
  rw [hskip c hc, List.mem_append, List.mem_singleton, or_iff_left (hnone c hc)]

end TreeInv

section Masks

lemma testBit_foldl_mask (bits : List Bool) (k mask i : Nat) :
    ((bits.zipIdx k).foldl (fun mask b => if b.1 then mask ||| 1 <<< b.2 else mask) mask).testBit i =
      (mask.testBit i || (decide (k ≤ i) && bits.getD (i - k) false)) := by
  induction bits generalizing k mask with
  | nil => simp
  | cons b rest ih =>
    rw [List.zipIdx_cons, List.foldl_cons, ih]
    obtain hlt | rfl | hgt := lt_trichotomy i k
    · cases b <;> simp [Nat.one_shiftLeft, hlt.ne', show ¬k ≤ i by omega, show ¬k < i by omega]
    · cases b <;> simp [Nat.one_shiftLeft, Nat.testBit_two_pow_self]
    · have hsub : i - k = (i - (k + 1)) + 1 := by omega
      cases b <;> simp [Nat.one_shiftLeft, hgt.ne, hgt.le, hsub, show k + 1 ≤ i by omega]

@[simp]
lemma testBit_maskOf (bits : List Bool) (i : Nat) : (maskOf bits).testBit i = bits.getD i false := by
  rw [maskOf, testBit_foldl_mask]
  simp

lemma maskOf_eq_zero {bits : List Bool} : maskOf bits = 0 ↔ ∀ b ∈ bits, b = false := by
  constructor
  · intro h b hb
    obtain ⟨i, hi, rfl⟩ := List.mem_iff_getElem.mp hb
    have := testBit_maskOf bits i
    rw [h, Nat.zero_testBit, List.getD_eq_getElem?_getD, List.getElem?_eq_getElem hi] at this
    exact this.symm
  · intro h
    refine Nat.eq_of_testBit_eq fun i => ?_
    rw [testBit_maskOf, Nat.zero_testBit, List.getD_eq_getElem?_getD]
    cases hi : bits[i]? with
    | none => rfl
    | some b => exact h b (List.mem_of_getElem? hi)

end Masks

lemma smallerName_eq_none {first : Option (List UInt8)} {e : Option NameEntry} :
    smallerName first e = none ↔ first = none ∧ e = none := by
  cases e with
  | none => simp [smallerName]
  | some e =>
    cases first with
    | none => simp [smallerName]
    | some first =>
      rw [smallerName]
      split_ifs <;> simp

lemma smallerName_eq_some {first : Option (List UInt8)} {e : Option NameEntry} {x : List UInt8}
    (h : smallerName first e = some x) : first = some x ∨ ∃ a, e = some a ∧ a.path = x := by
  cases e with
  | none => exact .inl h
  | some e =>
    cases first with
    | none => exact .inr ⟨e, rfl, Option.some.inj h⟩
    | some first =>
      rw [smallerName] at h
      split_ifs at h
      · exact .inr ⟨e, rfl, Option.some.inj h⟩
      · exact .inl h

variable {entry : List (Option NameEntry)}

lemma foldl_smallerName_eq_none {first : Option (List UInt8)} :
    entry.foldl smallerName first = none ↔ first = none ∧ ∀ e ∈ entry, e = none := by
  induction entry generalizing first with
  | nil => simp
  | cons e rest ih =>
    rw [List.foldl_cons, ih, smallerName_eq_none, List.forall_mem_cons, and_assoc]

lemma foldl_smallerName_eq_some {first : Option (List UInt8)} {x : List UInt8}
    (h : entry.foldl smallerName first = some x) : first = some x ∨ ∃ a, some a ∈ entry ∧ a.path = x := by
  induction entry generalizing first with
  | nil => exact .inl h
  | cons e rest ih =>
    rw [List.foldl_cons] at h
    obtain h | ⟨a, ha, hpath⟩ := ih h
    · obtain h | ⟨a, rfl, hpath⟩ := smallerName_eq_some h
      · exact .inl h
      · exact .inr ⟨a, List.mem_cons_self, hpath⟩
    · exact .inr ⟨a, List.mem_cons_of_mem _ ha, hpath⟩

section Round

variable {names : List (List UInt8)} {descs : List (List NameEntry)} {tx : List TreeDescX}

lemma extractEntries_spec (hdescs : ∀ d ∈ descs, CanonicalDesc d) (h : List.Forall₂ (TreeInv names) descs tx) :
    ((∀ d ∈ descs, ∀ a ∈ d, a.path ∈ names) ∧ ∀ e ∈ (extractEntries tx).map Prod.snd, e = none) ∨
      ∃ first, first ∉ names ∧ (∃ d ∈ descs, ∃ a ∈ d, a.path = first) ∧
        List.Forall₂ (fun d t => TreeInv names d t.1 ∧ t.2 = entryOf d first) descs (extractEntries tx) := by
  have hheads : List.Forall₂ (fun d t => TreeInv names d t.1 ∧ t.2 = t.1.d.head? ∧ ∀ a ∈ t.2, a.path ∉ names) descs
      (tx.map (fun t => extendedEntryExtract t none)) := by
    rw [List.forall₂_map_right_iff]
    exact h.imp fun d t ht => ⟨ht.dropProcessed.1, rfl, ht.dropProcessed.2⟩
  unfold extractEntries
  dsimp only
  generalize tx.map (fun t => extendedEntryExtract t none) = tx' at hheads ⊢
  cases hname : firstName (tx'.map Prod.snd) with
  | none =>
    have hnone := (foldl_smallerName_eq_none.mp hname).2
    refine .inl ⟨fun d hd a ha => ?_, hnone⟩
    obtain ⟨t, ht, hinv, hhead, -⟩ := exists_right_of_forall₂ hheads hd
    obtain ⟨passed, heq, hpassed⟩ := hinv.passed
    rw [hnone _ (List.mem_map_of_mem ht), eq_comm, List.head?_eq_none_iff] at hhead
    rw [heq, hhead, List.append_nil] at ha
    exact hpassed a ha
  | some first =>
    obtain hfirst | ⟨a, ha, hpath⟩ := foldl_smallerName_eq_some hname
    · cases hfirst
    obtain ⟨t, ht, hta⟩ := List.mem_map.mp ha
    obtain ⟨d, hd, hinv, hhead, hnew⟩ := exists_left_of_forall₂ hheads ht
    have hfirst : first ∉ names := hpath ▸ hnew a hta
    refine .inr ⟨first, hfirst, ⟨d, hd, a, hinv.sublist.subset ?_, hpath⟩, ?_⟩
    · rw [hta, eq_comm] at hhead
      exact List.mem_of_head? hhead
    · rw [List.forall₂_map_right_iff]
      refine ((List.forall₂_and_left _ _).mpr ⟨hdescs, hheads⟩).imp fun d t ht => ?_
      obtain ⟨hd, hinv, -, -⟩ := ht
      obtain ⟨hinv', -⟩ := hinv.dropProcessed
      have hlook := (lookAhead_eq (hd.sublist hinv'.sublist) first).trans (hinv'.entryOf_eq hfirst)
      refine ⟨hinv', ?_⟩
      unfold extendedEntryExtract
      dsimp only at hlook ⊢
      rw [hlook]
      cases he : entryOf d first with
      | none => rfl
      | some e =>
        rw [Option.filter_some, if_pos (by simpa using nameCompare_zero.mpr (entryOf_eq_some he).2)]

def shownFor (descs : List (List NameEntry)) (name : List UInt8) : Shown :=
  shownOf (descs.map (fun d => entryOf d name))

def WalkInv (descs : List (List NameEntry)) (s : WalkState) : Prop :=
  ∃ names : List (List UInt8), names.Nodup ∧ (∀ x ∈ names, ∃ d ∈ descs, ∃ a ∈ d, a.path = x) ∧
    s.calls = names.map (shownFor descs) ∧ s.ret = 0 ∧ List.Forall₂ (TreeInv names) descs s.tx

lemma updateTree_forall₂ {extracted : List (TreeDescX × Option NameEntry)} {first : List UInt8} {mask k : Nat}
    (hdescs : ∀ d ∈ descs, CanonicalDesc d) (hfirst : first ∉ names)
    (h : List.Forall₂ (fun d t => TreeInv names d t.1 ∧ t.2 = entryOf d first) descs extracted)
    (hbit : ∀ i t, extracted[i]? = some t → t.2.isSome → mask.testBit (k + i) = true) :
    List.Forall₂ (TreeInv (names ++ [first])) descs
      ((extracted.zipIdx k).map (fun t => updateTree mask mask t.2 t.1)) := by
  induction h generalizing k with
  | nil => exact .nil
  | cons ht hrest ih =>
    rename_i d t descs extracted
    obtain ⟨hd, hdescs⟩ := List.forall_mem_cons.mp hdescs
    obtain ⟨hinv, hentry⟩ := ht
    rw [List.zipIdx_cons, List.map_cons]
    refine .cons ?_ (ih hdescs fun i t' ht' hsome => ?_)
    · rw [updateTree]
      cases he : t.2 with
      | none => exact hinv.keep hfirst (hentry.symm.trans he)
      | some e =>
        have hmask := hbit 0 t rfl (by rw [he]; rfl)
        rw [Nat.add_zero] at hmask
        have hused : Int.testBit (mask : Int) k = true := hmask
        dsimp only
        rw [hmask, hused, Bool.and_self, if_pos rfl]
        exact hinv.update hd hfirst (hentry.symm.trans he)
    · rw [show k + 1 + i = k + (i + 1) by omega]
      exact hbit (i + 1) t' (by simpa using ht') hsome

variable {fn : List Shown → Shown → Int} {showAllErrors : Bool} {s s' : WalkState}

def roundsLeft (descs : List (List NameEntry)) (s : WalkState) : Nat :=
  (descs.flatMap (fun d => d.map NameEntry.path)).length - s.calls.length

lemma WalkInv.length_le {names : List (List UInt8)} (hnodup : names.Nodup)
    (hoccurs : ∀ x ∈ names, ∃ d ∈ descs, ∃ a ∈ d, a.path = x) :
    names.length ≤ (descs.flatMap (fun d => d.map NameEntry.path)).length := by
  refine (List.subperm_of_subset hnodup fun x hx => ?_).length_le
  obtain ⟨d, hd, a, ha, rfl⟩ := hoccurs x hx
  exact List.mem_flatMap.mpr ⟨d, hd, List.mem_map_of_mem ha⟩

lemma map_snd_extracted {extracted : List (TreeDescX × Option NameEntry)} {first : List UInt8}
    (h : List.Forall₂ (fun d t => TreeInv names d t.1 ∧ t.2 = entryOf d first) descs extracted) :
    extracted.map Prod.snd = descs.map (fun d => entryOf d first) := by
  induction h with
  | nil => rfl
  | cons ht _ ih => rw [List.map_cons, List.map_cons, ht.2, ih]

lemma shownOf_mask_eq_zero :
    (shownOf entry).mask = 0 ↔ ∀ e ∈ entry, e = none := by
  unfold shownOf
  rw [maskOf_eq_zero, List.forall_mem_map]
  simp

lemma WalkInv.walkRound_eq (showAllErrors : Bool) (hdescs : ∀ d ∈ descs, CanonicalDesc d) (hfn : ∀ calls shown, fn calls shown = shown.mask)
    (htrees : List.Forall₂ (TreeInv names) descs s.tx) :
    ((∀ d ∈ descs, ∀ a ∈ d, a.path ∈ names) ∧ walkRound fn showAllErrors s = .inr (s.ret, s.calls)) ∨
      ∃ first tx, first ∉ names ∧ (∃ d ∈ descs, ∃ a ∈ d, a.path = first) ∧
        walkRound fn showAllErrors s = .inl ⟨tx, s.calls ++ [shownFor descs first], s.ret⟩ ∧
        List.Forall₂ (TreeInv (names ++ [first])) descs tx := by
  obtain ⟨hall, hnone⟩ | ⟨first, hfirst, hoccurs, hall⟩ := extractEntries_spec hdescs htrees
  · refine .inl ⟨hall, ?_⟩
    rw [walkRound]
    dsimp only
    rw [if_pos (shownOf_mask_eq_zero.mpr hnone)]
  · have hshown : shownOf ((extractEntries s.tx).map Prod.snd) = shownFor descs first := by
      rw [map_snd_extracted hall]
      rfl
    have hmask : (shownFor descs first).mask ≠ 0 := by
      intro hzero
      obtain ⟨d, hd, a, ha, hpath⟩ := hoccurs
      have := shownOf_mask_eq_zero.mp hzero (entryOf d first) (List.mem_map_of_mem hd)
      exact entryOf_eq_none.mp this a ha hpath
    refine .inr ⟨first, _, hfirst, hoccurs, ?_,
      @updateTree_forall₂ _ _ _ _ (shownFor descs first).mask 0 hdescs hfirst hall fun i t ht hsome => ?_⟩
    · rw [walkRound]
      dsimp only
      rw [hshown, if_neg hmask, hfn, if_neg (by omega), if_neg (by omega)]
    · rw [Nat.zero_add, ← hshown, shownOf, testBit_maskOf, List.map_map, List.getD_eq_getElem?_getD, List.getElem?_map, ht]
      simpa using hsome

lemma WalkInv.round (hdescs : ∀ d ∈ descs, CanonicalDesc d) (hfn : ∀ calls shown, fn calls shown = shown.mask)
    (h : WalkInv descs s) (hstep : walkRound fn showAllErrors s = .inl s') :
    WalkInv descs s' ∧ roundsLeft descs s' < roundsLeft descs s := by
  obtain ⟨names, hnodup, hoccurs, hcalls, hret, htrees⟩ := h
  obtain ⟨-, hdone⟩ | ⟨first, tx, hfirst, hfirst_occurs, hround, htrees'⟩ :=
    WalkInv.walkRound_eq showAllErrors hdescs hfn htrees
  · rw [hdone] at hstep
    cases hstep
  · rw [hround] at hstep
    obtain rfl := Sum.inl.inj hstep
    have hnodup' : (names ++ [first]).Nodup := by
      rw [List.nodup_append]
      exact ⟨hnodup, List.nodup_singleton first, fun a ha b hb heq => hfirst (by
        rwa [heq, List.mem_singleton.mp hb] at ha)⟩
    have hoccurs' : ∀ x ∈ names ++ [first], ∃ d ∈ descs, ∃ a ∈ d, a.path = x := by
      intro x hx
      obtain hx | hx := List.mem_append.mp hx
      · exact hoccurs x hx
      · rw [List.mem_singleton.mp hx]
        exact hfirst_occurs
    have hlength := WalkInv.length_le hnodup' hoccurs'
    refine ⟨⟨names ++ [first], hnodup', hoccurs', ?_, hret, htrees'⟩, ?_⟩
    · rw [List.map_append, ← hcalls]
      rfl
    · unfold roundsLeft
      dsimp only
      rw [List.length_append, List.length_singleton] at *
      rw [hcalls, List.length_map]
      omega

lemma WalkInv.done (hdescs : ∀ d ∈ descs, CanonicalDesc d) (hfn : ∀ calls shown, fn calls shown = shown.mask)
    (h : WalkInv descs s) {result : Int × List Shown} (hstep : walkRound fn showAllErrors s = .inr result) :
    ∃ names : List (List UInt8), names.Nodup ∧ (∀ x, x ∈ names ↔ ∃ d ∈ descs, ∃ a ∈ d, a.path = x) ∧
      result = (0, names.map (shownFor descs)) := by
  obtain ⟨names, hnodup, hoccurs, hcalls, hret, htrees⟩ := h
  obtain ⟨hall, hdone⟩ | ⟨first, tx, -, -, hround, -⟩ := WalkInv.walkRound_eq showAllErrors hdescs hfn htrees
  · rw [hdone] at hstep
    refine ⟨names, hnodup, fun x => ⟨hoccurs x, ?_⟩, ?_⟩
    · rintro ⟨d, hd, a, ha, rfl⟩
      exact hall d hd a ha
    · rw [← Sum.inr.inj hstep, hret, hcalls]
  · rw [hround] at hstep
    cases hstep

end Round

/-- The callback is shown this name from every tree that has it, with the trees in which it is a directory. -/
def ShowsName (t : List (List TreeEntry)) (name : List UInt8) (shown : Shown) : Prop :=
  shown.entry.length = t.length ∧ ∀ i,
    (shown.mask.testBit i = true ↔ ∃ tree, t[i]? = some tree ∧ name ∈ tree.map TreeEntry.path) ∧
    (shown.dirmask.testBit i = true ↔ ∃ tree, t[i]? = some tree ∧ ∃ e ∈ tree, e.path = name ∧ isDir e.mode = true) ∧
    (shown.mask.testBit i = true → ∃ a, shown.entry[i]? = some (some a)) ∧
    ∀ a, shown.entry[i]? = some (some a) →
      a.path = name ∧ ∃ tree, t[i]? = some tree ∧ ⟨a.path, a.mode, a.oid⟩ ∈ tree

lemma mem_of_treeDescFrom {tree : List TreeEntry} {e : TreeEntry} (h : e ∈ tree) (pos : Nat) :
    ∃ a ∈ treeDescFrom pos tree, a.path = e.path ∧ a.mode = e.mode ∧ a.oid = e.oid := by
  induction tree generalizing pos with
  | nil => cases h
  | cons e' rest ih =>
    rw [treeDescFrom]
    obtain rfl | h := List.mem_cons.mp h
    · exact ⟨_, List.mem_cons_self, rfl, rfl, rfl⟩
    · obtain ⟨a, ha, heq⟩ := ih h (pos + 1)
      exact ⟨a, List.mem_cons_of_mem _ ha, heq⟩

lemma showsName_shownFor {t : List (List TreeEntry)} (ht : ∀ tree ∈ t, Canonical tree) (name : List UInt8) :
    ShowsName t name (shownFor (t.map (treeDescFrom 0)) name) := by
  refine ⟨by simp [shownFor, shownOf], fun i => ?_⟩
  have hentry : (shownFor (t.map (treeDescFrom 0)) name).entry[i]? =
      (t[i]?).map (fun tree => entryOf (treeDescFrom 0 tree) name) := by
    simp [shownFor, shownOf, Function.comp_def]
  have hmask : (shownFor (t.map (treeDescFrom 0)) name).mask.testBit i =
      ((t[i]?).map (fun tree => (entryOf (treeDescFrom 0 tree) name).isSome)).getD false := by
    simp [shownFor, shownOf, Function.comp_def]
  have hdirmask : (shownFor (t.map (treeDescFrom 0)) name).dirmask.testBit i =
      ((t[i]?).map (fun tree => (entryOf (treeDescFrom 0 tree) name).any (fun a => isDir a.mode))).getD false := by
    simp [shownFor, shownOf, Function.comp_def]
  rw [hentry, hmask, hdirmask]
  cases htree : t[i]? with
  | none => simp
  | some tree =>
    have hcanonical := canonicalDesc_of_canonical (ht tree (List.mem_of_getElem? htree)) 0
    have hsome : (entryOf (treeDescFrom 0 tree) name).isSome = true ↔ name ∈ tree.map TreeEntry.path := by
      rw [← map_path_treeDescFrom tree 0, entryOf, List.find?_isSome, List.mem_map]
      simp only [decide_eq_true_eq]
    have hany : (entryOf (treeDescFrom 0 tree) name).any (fun a => isDir a.mode) = true ↔
        ∃ e ∈ tree, e.path = name ∧ isDir e.mode = true := by
      constructor
      · intro h
        cases ha : entryOf (treeDescFrom 0 tree) name with
        | none => simp [ha] at h
        | some a =>
          obtain ⟨hmem, hpath⟩ := entryOf_eq_some ha
          have hdir : isDir a.mode = true := by simpa [ha] using h
          exact ⟨_, (mem_treeDescFrom hmem).2, hpath, hdir⟩
      · rintro ⟨e, he, hpath, hdir⟩
        obtain ⟨a, ha, hpath', hmode, -⟩ := mem_of_treeDescFrom he 0
        cases hentry : entryOf (treeDescFrom 0 tree) name with
        | none => exact absurd (hpath'.trans hpath) (entryOf_eq_none.mp hentry a ha)
        | some b =>
          obtain ⟨hb, hbpath⟩ := entryOf_eq_some hentry
          obtain rfl := hcanonical.eq_of_path ha hb ((hpath'.trans hpath).trans hbpath.symm)
          rw [Option.any_some, hmode, hdir]
    refine ⟨by simpa using hsome, by simpa using hany, fun hbit => ?_, fun a ha => ?_⟩
    · simpa [Option.isSome_iff_exists] using hbit
    · have ha : entryOf (treeDescFrom 0 tree) name = some a := by simpa using ha
      obtain ⟨hmem, hpath⟩ := entryOf_eq_some ha
      exact ⟨hpath, tree, rfl, (mem_treeDescFrom hmem).2⟩

end GitCore.Trees
