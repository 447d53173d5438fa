import GitCore.Lib.Bytes
import GitCore.Lib.Linked

/-!
# Rearranging a todo list

`todo_list_rearrange_squash` of `sequencer.c`. Subjects of commits and commits found by name are parameters.
-/

namespace GitCore.Todo

inductive TodoCommand where
  | pick | revert | edit | reword | fixup | squash | exec | break_ | label | reset | merge | updateRef | noop | drop
  | comment
  deriving DecidableEq

def isFixup (command : TodoCommand) : Bool := command = .fixup ∨ command = .squash

def replaceFixupMsg : Nat := 2

structure TodoItem (Commit : Type*) where
  command : TodoCommand
  commit : Option Commit
  flags : Nat
  argLen : Nat
  offsetInBuf : Nat
  argOffset : Nat

def space : UInt8 := 0x20

def isspace (c : UInt8) : Bool := c = space ∨ c = 0x09 ∨ c = 0x0a ∨ c = 0x0d

/-- `fixup!` -/
def fixupBang : List UInt8 := [0x66, 0x69, 0x78, 0x75, 0x70, 0x21]

/-- `amend!` -/
def amendBang : List UInt8 := [0x61, 0x6d, 0x65, 0x6e, 0x64, 0x21]

/-- `squash!` -/
def squashBang : List UInt8 := [0x73, 0x71, 0x75, 0x61, 0x73, 0x68, 0x21]

def skipPrefix (str pre : List UInt8) : Option (List UInt8) :=
  if pre.isPrefixOf str then some (str.drop pre.length) else none

def skipFixupish (subject : List UInt8) : Option (List UInt8) :=
  (skipPrefix subject (fixupBang ++ [space])).or
    ((skipPrefix subject (amendBang ++ [space])).or (skipPrefix subject (squashBang ++ [space])))

lemma skipPrefix_length {str pre rest : List UInt8} (hpos : pre ≠ []) (h : skipPrefix str pre = some rest) :
    rest.length < str.length := by
  rw [skipPrefix] at h
  split_ifs at h with hpre
  cases h
  have hle := (List.isPrefixOf_iff_prefix.mp hpre).length_le
  have := List.length_pos_of_ne_nil hpos
  rw [List.length_drop]
  omega

lemma skipFixupish_length {subject p : List UInt8} (h : skipFixupish subject = some p) : p.length < subject.length := by
  rw [skipFixupish, Option.or_eq_some_iff, Option.or_eq_some_iff] at h
  rcases h with h | ⟨-, h | ⟨-, h⟩⟩
  · exact skipPrefix_length (by decide) h
  · exact skipPrefix_length (by decide) h
  · exact skipPrefix_length (by decide) h

/-- The `for (;;)` behind the first of the words. -/
def skipAllFixupish (p : List UInt8) : List UInt8 :=
  match _h : skipFixupish (p.dropWhile isspace) with
  | some q => skipAllFixupish q
  | none => p.dropWhile isspace
termination_by p.length
decreasing_by exact (skipFixupish_length _h).trans_le (List.dropWhile_suffix isspace).length_le

variable {Commit : Type*} [DecidableEq Commit]

/-- The local variables of `todo_list_rearrange_squash`, and the items. -/
structure Rearrangement (Commit : Type*) where
  items : List (TodoItem Commit)
  subject2item : List (List UInt8 × Nat)
  commitTodo : Commit → Option Nat
  next : Nat → Option Nat
  tail : Nat → Option Nat
  subjects : Nat → Option (List UInt8)
  rearranged : Bool

def TodoItem.squash (item : TodoItem Commit) (subject : List UInt8) : TodoItem Commit :=
  if fixupBang.isPrefixOf subject then { item with command := .fixup }
  else if amendBang.isPrefixOf subject then { item with command := .fixup, flags := replaceFixupMsg }
  else { item with command := .squash }

/-- `i2`: by title, by commit name, or by the beginning of the subject. -/
def Rearrangement.findTarget (lookupCommitReferenceByName : List UInt8 → Option Commit) (s : Rearrangement Commit)
    (i : Nat) (subject : List UInt8) : Option Nat :=
  match skipFixupish subject with
  | none => none
  | some p =>
    let p := skipAllFixupish p
    (s.subject2item.lookup p).or
      ((if space ∈ p then none else (lookupCommitReferenceByName p).bind s.commitTodo).or
        ((List.range i).find? fun i2 => (s.subjects i2).any p.isPrefixOf))

/-- The item is linked in behind `i2`, and behind those that are there already. -/
def Rearrangement.attach (s : Rearrangement Commit) (i i2 : Nat) (subject : List UInt8) : Rearrangement Commit :=
  { s with
    rearranged := true
    items := s.items.modify i fun item => item.squash subject
    next := match s.tail i2 with
      | none => linkAfter s.next i2 i
      | some t => linkAfter s.next t i
    tail := Function.update s.tail i2 (some i) }

/-- The item keeps its place; a subject that is not in the map yet is put into it. -/
def Rearrangement.keep (s : Rearrangement Commit) (i : Nat) (subject : List UInt8) : Rearrangement Commit :=
  if (s.subject2item.lookup subject).isSome then s else { s with subject2item := (subject, i) :: s.subject2item }

/-- The body of the first loop; with an error it leaves the items as they are then. -/
def Rearrangement.step (subjectOf : Commit → List UInt8) (lookupCommitReferenceByName : List UInt8 → Option Commit)
    (s : Rearrangement Commit) (i : Nat) (item : TodoItem Commit) :
    Except (List (TodoItem Commit)) (Rearrangement Commit) :=
  match item.commit with
  | none => .ok s
  | some commit =>
    if item.command = .drop then .ok s
    else if isFixup item.command then .error s.items
    else
      let subject := subjectOf commit
      let s := { s with subjects := Function.update s.subjects i (some subject) }
      let s' := match s.findTarget lookupCommitReferenceByName i subject with
        | some i2 => s.attach i i2 subject
        | none => s.keep i subject
      .ok { s' with commitTodo := Function.update s'.commitTodo commit (some i) }

def Rearrangement.init (items : List (TodoItem Commit)) : Rearrangement Commit :=
  ⟨items, [], fun _ => none, fun _ => none, fun _ => none, fun _ => none, false⟩

def Rearrangement.run (subjectOf : Commit → List UInt8) (lookupCommitReferenceByName : List UInt8 → Option Commit)
    (items : List (TodoItem Commit)) : Nat → Except (List (TodoItem Commit)) (Rearrangement Commit)
  | 0 => .ok (init items)
  | i + 1 => do
    let s ← run subjectOf lookupCommitReferenceByName items i
    match s.items[i]? with
    | none => .ok s
    | some item => s.step subjectOf lookupCommitReferenceByName i item

def Rearrangement.collect (s : Rearrangement Commit) : Option (List (TodoItem Commit)) :=
  ((List.range s.items.length).filter fun i => (s.items[i]?).any fun item => !isFixup item.command).mapM
      (fun i => follow s.next s.items.length (some i)) |>.map
    fun groups => groups.flatten.filterMap (s.items[·]?)

/-- How `todo_list_rearrange_squash` ends, with the items of the list after it. -/
inductive RearrangeSquash (Commit : Type*) where
  | alreadyRearranged (items : List (TodoItem Commit))
  | endless
  | assertionFailed
  | done (items : List (TodoItem Commit))

def todoListRearrangeSquash (subjectOf : Commit → List UInt8)
    (lookupCommitReferenceByName : List UInt8 → Option Commit) (items : List (TodoItem Commit)) :
    RearrangeSquash Commit :=
  match Rearrangement.run subjectOf lookupCommitReferenceByName items items.length with
  | .error items => .alreadyRearranged items
  | .ok s =>
    if s.rearranged then
      match s.collect with
      | none => .endless
      | some out => if out.length = items.length then .done out else .assertionFailed
    else .done s.items

end GitCore.Todo

/-!
# What rearranging does to a todo list

The new order is a sequence of groups: an item that keeps its place, and behind it what was moved there.
-/

namespace GitCore.Todo

def children (target : Nat → Option Nat) (n t : Nat) : List Nat := (List.range n).filter fun i => target i = some t

/-- The groups of the first `n` items. -/
structure Rearranged (target : Nat → Option Nat) (n : Nat) (groups : List (List Nat)) : Prop where
  perm : groups.flatten.Perm (List.range n)
  kept : groups.map List.head? = ((List.range n).filter fun i => (target i).isNone).map some
  within : ∀ g ∈ groups, ∀ i ∈ g.tail, ∃ t ∈ g, target i = some t
  after : ∀ t < n, (t :: children target n t).Sublist groups.flatten

section Groups

variable {target : Nat → Option Nat} {n t : Nat} {groups : List (List Nat)}

lemma children_succ (target : Nat → Option Nat) (n t : Nat) :
    children target (n + 1) t = children target n t ++ if target n = some t then [n] else [] := by
  rw [children, List.range_succ, List.filter_append, children]
  congr 1
  by_cases h : target n = some t
  · rw [if_pos h, List.filter_cons_of_pos (by simpa using h), List.filter_nil]
  · rw [if_neg h, List.filter_cons_of_neg (by simpa using h), List.filter_nil]

lemma kept_succ (target : Nat → Option Nat) (n : Nat) :
    ((List.range (n + 1)).filter fun i => (target i).isNone) =
      ((List.range n).filter fun i => (target i).isNone) ++ if (target n).isNone then [n] else [] := by
  rw [List.range_succ, List.filter_append]
  congr 1
  by_cases h : (target n).isNone
  · rw [if_pos h]
    exact List.filter_cons_of_pos h
  · rw [if_neg h]
    exact List.filter_cons_of_neg h

lemma mem_children {i : Nat} : i ∈ children target n t ↔ i < n ∧ target i = some t := by
  rw [children, List.mem_filter, List.mem_range, decide_eq_true_iff]

lemma children_self (hlt : ∀ i t, target i = some t → t < i) : children target (n + 1) n = [] := by
  refine List.eq_nil_iff_forall_not_mem.mpr fun i hi => ?_
  obtain ⟨hin, htarget⟩ := mem_children.mp hi
  have := hlt i n htarget
  omega

lemma Rearranged.nodup (h : Rearranged target n groups) : groups.flatten.Nodup :=
  h.perm.nodup_iff.mpr List.nodup_range

lemma Rearranged.mem_iff (h : Rearranged target n groups) {i : Nat} : i ∈ groups.flatten ↔ i < n :=
  h.perm.mem_iff.trans List.mem_range

lemma Rearranged.zero (target : Nat → Option Nat) : Rearranged target 0 [] :=
  ⟨List.Perm.refl _, rfl, fun _ hg => absurd hg List.not_mem_nil, fun _ ht => absurd ht (Nat.not_lt_zero _)⟩

lemma Rearranged.keep (h : Rearranged target n groups) (hlt : ∀ i t, target i = some t → t < i)
    (hnone : target n = none) : Rearranged target (n + 1) (groups ++ [[n]]) := by
  have hflat : (groups ++ [[n]]).flatten = groups.flatten ++ [n] := by
    rw [List.flatten_append, List.flatten_singleton]
  have hsame : ∀ t, children target (n + 1) t = children target n t := fun t => by
    rw [children_succ, hnone, if_neg (by simp), List.append_nil]
  refine ⟨?_, ?_, ?_, ?_⟩
  · rw [hflat, List.range_succ]
    exact h.perm.append_right [n]
  · rw [List.map_append, h.kept, kept_succ, hnone, if_pos Option.isNone_none, List.map_append]
    rfl
  · intro g hg i hi
    obtain hg | hg := List.mem_append.mp hg
    · exact h.within g hg i hi
    · rw [List.mem_singleton.mp hg] at hi
      cases hi
  · intro t ht
    rw [hflat]
    obtain ht | rfl := Nat.lt_succ_iff_lt_or_eq.mp ht
    · rw [hsame]
      exact (h.after t ht).trans (List.sublist_append_left _ _)
    · rw [children_self hlt]
      exact List.singleton_sublist.mpr (List.mem_append_right _ (List.mem_singleton_self t))

lemma Rearranged.attach (h : Rearranged target n groups) (hlt : ∀ i t, target i = some t → t < i)
    (hsome : target n = some t) :
    Rearranged target (n + 1) (groups.map (insertAfter (((children target n t).getLast?).getD t) n)) := by
  set e := ((children target n t).getLast?).getD t with he
  have htn : t < n := hlt n t hsome
  have hlast : ∃ l, t :: children target n t = l ++ [e] := by
    obtain hnil | ⟨l, e', hl⟩ := List.eq_nil_or_concat (children target n t)
    · exact ⟨[], by rw [he, hnil]; rfl⟩
    · refine ⟨t :: l, ?_⟩
      rw [he, hl, List.concat_eq_append, List.getLast?_concat]
      rfl
  obtain ⟨l, hl⟩ := hlast
  have hsub := h.after t htn
  rw [hl] at hsub
  have hmem : e ∈ groups.flatten := hsub.subset (List.mem_append_right l (List.mem_singleton_self e))
  have hflat := @flatten_map_insertAfter _ _ e n groups h.nodup
  refine ⟨?_, ?_, ?_, ?_⟩
  · rw [hflat, List.range_succ]
    exact (insertAfter_perm hmem).trans ((h.perm.cons n).trans (List.perm_append_singleton n _).symm)
  · rw [List.map_map, kept_succ, hsome, if_neg (by simp), List.append_nil, ← h.kept]
    exact List.map_congr_left fun g _ => head?_insertAfter g
  · intro g' hg' i hi
    obtain ⟨g, hg, rfl⟩ := List.mem_map.mp hg'
    have hkeep : ∀ k ∈ g, k ∈ insertAfter e n g := fun k hk => (sublist_insertAfter g).subset hk
    obtain hold | ⟨rfl, heg⟩ := mem_tail_insertAfter hi
    · obtain ⟨t', ht', htarget⟩ := h.within g hg i hold
      exact ⟨t', hkeep t' ht', htarget⟩
    · refine ⟨t, hkeep t ?_, hsome⟩
      -- `e` is the target itself, or it was moved behind it before
      have hcases : e ∈ t :: children target i t := hl ▸ List.mem_append_right l (List.mem_singleton_self e)
      obtain hself | hchild := List.mem_cons.mp hcases
      · exact hself ▸ heg
      · have htarget := (mem_children.mp hchild).2
        have htail : e ∈ g.tail := by
          cases g with
          | nil => cases heg
          | cons r g =>
            obtain rfl | hin := List.mem_cons.mp heg
            · have hhead : some e ∈ groups.map List.head? := List.mem_map.mpr ⟨_, hg, rfl⟩
              rw [h.kept] at hhead
              obtain ⟨k, hk, hke⟩ := List.mem_map.mp hhead
              have hnone := (List.mem_filter.mp hk).2
              rw [Option.some.inj hke, htarget] at hnone
              cases hnone
            · exact hin
        obtain ⟨t', ht', htarget'⟩ := h.within g hg e htail
        rw [htarget] at htarget'
        exact Option.some.inj htarget' ▸ ht'
  · intro t' ht'
    rw [hflat]
    obtain ht' | rfl := Nat.lt_succ_iff_lt_or_eq.mp ht'
    · rw [children_succ]
      by_cases heq : target n = some t'
      · obtain rfl : t = t' := Option.some.inj (hsome.symm.trans heq)
        rw [if_pos heq, ← List.cons_append, hl, List.append_assoc]
        exact append_sublist_insertAfter h.nodup hsub
      · rw [if_neg heq, List.append_nil]
        exact (h.after t' ht').trans (sublist_insertAfter _)
    · rw [children_self hlt]
      exact List.singleton_sublist.mpr ((insertAfter_perm hmem).mem_iff.mpr List.mem_cons_self)

lemma mapM_follow {next : Nat → Option Nat} {roots : List Nat} {fuel : Nat}
    (hheads : groups.map List.head? = roots.map some) (hlinks : ∀ g ∈ groups, LinksThrough next g)
    (hfuel : ∀ g ∈ groups, g.length ≤ fuel) : roots.mapM (fun i => follow next fuel (some i)) = some groups := by
  induction groups generalizing roots with
  | nil =>
    rw [List.map_eq_nil_iff.mp hheads.symm]
    rfl
  | cons g groups ih =>
    cases roots with
    | nil => cases hheads
    | cons r roots =>
      obtain ⟨hhead, htail⟩ := List.cons.inj hheads
      have hg : follow next fuel (some r) = some g := by
        rw [← hhead]
        exact follow_head? (hlinks g List.mem_cons_self) (hfuel g List.mem_cons_self)
      have hgs := ih htail (fun g' hg' => hlinks g' (List.mem_cons_of_mem g hg'))
        fun g' hg' => hfuel g' (List.mem_cons_of_mem g hg')
      rw [List.mapM_cons, hg, hgs]
      rfl

lemma flatten_of_heads {roots : List Nat} (hheads : groups.map List.head? = roots.map some)
    (htails : ∀ g ∈ groups, g.tail = []) : groups.flatten = roots := by
  induction groups generalizing roots with
  | nil => exact (List.map_eq_nil_iff.mp hheads.symm).symm
  | cons g groups ih =>
    cases roots with
    | nil => cases hheads
    | cons r roots =>
      obtain ⟨hhead, hrest⟩ := List.cons.inj hheads
      have hg : g = [r] := by
        cases g with
        | nil => cases hhead
        | cons a g =>
          have hnil : g = [] := htails _ List.mem_cons_self
          rw [hnil, Option.some.inj hhead]
      rw [List.flatten_cons, ih hrest fun g' hg' => htails g' (List.mem_cons_of_mem g hg'), hg]
      rfl

end Groups

section Loop

variable {Commit : Type*} [DecidableEq Commit] (subjectOf : Commit → List UInt8)
  (lookupCommitReferenceByName : List UInt8 → Option Commit) (items : List (TodoItem Commit))

/-- `i2`, or nothing where the loop does not come to it. -/
def Rearrangement.target (s : Rearrangement Commit) (i : Nat) (item : TodoItem Commit) : Option Nat :=
  item.commit.bind fun commit =>
    if item.command = .drop ∨ isFixup item.command then none
    else
      let subject := subjectOf commit
      Rearrangement.findTarget lookupCommitReferenceByName
        { s with subjects := Function.update s.subjects i (some subject) } i subject

/-- The item that the first loop moves item `i` behind. -/
def squashTarget (i : Nat) : Option Nat :=
  match Rearrangement.run subjectOf lookupCommitReferenceByName items i with
  | .error _ => none
  | .ok s => (s.items[i]?).bind (s.target subjectOf lookupCommitReferenceByName i)

def Becomes (target : Option Nat) (item item' : TodoItem Commit) : Prop :=
  match target with
  | none => item' = item
  | some _ => ∃ commit, item.commit = some commit ∧ (skipFixupish (subjectOf commit)).isSome ∧
    item' = item.squash (subjectOf commit)

structure Rearrangement.Below (s : Rearrangement Commit) (i : Nat) : Prop where
  titles : ∀ subject t, s.subject2item.lookup subject = some t → t < i
  commits : ∀ commit t, s.commitTodo commit = some t → t < i

variable {subjectOf lookupCommitReferenceByName items} {s s' : Rearrangement Commit} {i t : Nat}
  {item : TodoItem Commit} {subject : List UInt8}

omit [DecidableEq Commit] in
lemma Rearrangement.Below.findTarget_lt (h : s.Below i)
    (htarget : s.findTarget lookupCommitReferenceByName i subject = some t) : t < i := by
  rw [Rearrangement.findTarget] at htarget
  split at htarget
  · cases htarget
  · rw [Option.or_eq_some_iff, Option.or_eq_some_iff] at htarget
    obtain htitle | ⟨-, hname | ⟨-, hfirst⟩⟩ := htarget
    · exact h.titles _ t htitle
    · split_ifs at hname
      obtain ⟨commit, -, hcommit⟩ := Option.bind_eq_some_iff.mp hname
      exact h.commits commit t hcommit
    · exact List.mem_range.mp (List.mem_of_find?_eq_some hfirst)

omit [DecidableEq Commit] in
lemma isSome_of_findTarget (htarget : s.findTarget lookupCommitReferenceByName i subject = some t) :
    (skipFixupish subject).isSome := by
  rw [Rearrangement.findTarget] at htarget
  split at htarget
  · cases htarget
  · rename_i hsome
    rw [hsome]
    rfl

lemma step_cases (h : s.step subjectOf lookupCommitReferenceByName i item = .ok s') :
    (item.commit.isSome → isFixup item.command = false) ∧
    ((s.target subjectOf lookupCommitReferenceByName i item = none ∧ s'.items = s.items ∧ s'.next = s.next ∧
        s'.tail = s.tail ∧ s'.rearranged = s.rearranged) ∨
      ∃ t commit, s.target subjectOf lookupCommitReferenceByName i item = some t ∧ item.commit = some commit ∧
        (skipFixupish (subjectOf commit)).isSome ∧
        s'.items = s.items.modify i (fun item => item.squash (subjectOf commit)) ∧
        s'.next = linkAfter s.next ((s.tail t).getD t) i ∧ s'.tail = Function.update s.tail t (some i) ∧
        s'.rearranged = true) := by
  rw [Rearrangement.step] at h
  rw [Rearrangement.target]
  cases hcommit : item.commit with
  | none =>
    rw [hcommit] at h
    cases h
    exact ⟨fun hsome => absurd hsome (by simp), .inl ⟨rfl, rfl, rfl, rfl, rfl⟩⟩
  | some commit =>
    rw [hcommit] at h
    simp only [Option.bind_some] at h ⊢
    by_cases hdrop : item.command = .drop
    · rw [if_pos hdrop] at h
      cases h
      refine ⟨fun _ => by rw [hdrop]; rfl, .inl ⟨if_pos (.inl hdrop), rfl, rfl, rfl, rfl⟩⟩
    · rw [if_neg hdrop] at h
      by_cases hfixup : isFixup item.command
      · rw [if_pos hfixup] at h
        cases h
      · rw [if_neg hfixup] at h
        rw [if_neg (not_or.mpr ⟨hdrop, hfixup⟩)]
        refine ⟨fun _ => Bool.eq_false_iff.mpr hfixup, ?_⟩
        rw [← Except.ok.inj h]
        split
        · rename_i t htarget
          refine .inr ⟨t, commit, htarget, rfl, isSome_of_findTarget htarget, rfl, ?_, rfl, rfl⟩
          simp only [Rearrangement.attach]
          cases s.tail t <;> rfl
        · rename_i htarget
          refine .inl ⟨htarget, ?_, ?_, ?_, ?_⟩
          all_goals
            simp only [Rearrangement.keep]
            split <;> rfl

lemma step_below (hbelow : s.Below i) (h : s.step subjectOf lookupCommitReferenceByName i item = .ok s') :
    s'.Below (i + 1) := by
  have hnext : s.Below (i + 1) :=
    ⟨fun subject t ht => Nat.lt_succ_of_lt (hbelow.titles subject t ht),
      fun commit t ht => Nat.lt_succ_of_lt (hbelow.commits commit t ht)⟩
  rw [Rearrangement.step] at h
  cases hcommit : item.commit with
  | none =>
    rw [hcommit] at h
    cases h
    exact hnext
  | some commit =>
    rw [hcommit] at h
    simp only [] at h
    split_ifs at h
    · cases h
      exact hnext
    · rw [← Except.ok.inj h]
      have hput : ∀ commitTodo : Commit → Option Nat, (∀ c t, commitTodo c = some t → t < i + 1) →
          ∀ c t, Function.update commitTodo commit (some i) c = some t → t < i + 1 := by
        intro commitTodo hold c t ht
        by_cases hc : c = commit
        · rw [hc, Function.update_self] at ht
          cases ht
          exact Nat.lt_succ_self i
        · rw [Function.update_of_ne hc] at ht
          exact hold c t ht
      split
      · exact ⟨hnext.titles, hput _ hnext.commits⟩
      · rw [Rearrangement.keep]
        split
        · exact ⟨hnext.titles, hput _ hnext.commits⟩
        · refine ⟨fun subject t ht => ?_, hput _ hnext.commits⟩
          simp only [List.lookup_cons] at ht
          split at ht
          · cases ht
            exact Nat.lt_succ_self i
          · exact hnext.titles subject t ht

lemma run_succ_eq (hrun : Rearrangement.run subjectOf lookupCommitReferenceByName items (i + 1) = .ok s') :
    ∃ s, Rearrangement.run subjectOf lookupCommitReferenceByName items i = .ok s ∧
      (s.items[i]? = none ∧ s' = s ∨
        ∃ item, s.items[i]? = some item ∧ s.step subjectOf lookupCommitReferenceByName i item = .ok s') := by
  rw [Rearrangement.run] at hrun
  cases hbefore : Rearrangement.run subjectOf lookupCommitReferenceByName items i with
  | error items' =>
    rw [hbefore] at hrun
    cases hrun
  | ok s =>
    rw [hbefore] at hrun
    refine ⟨s, rfl, ?_⟩
    change (match s.items[i]? with
      | none => Except.ok s
      | some item => s.step subjectOf lookupCommitReferenceByName i item) = .ok s' at hrun
    cases hitem : s.items[i]? with
    | none =>
      rw [hitem] at hrun
      cases hrun
      exact .inl ⟨rfl, rfl⟩
    | some item =>
      rw [hitem] at hrun
      exact .inr ⟨item, rfl, hrun⟩

lemma run_below (hrun : Rearrangement.run subjectOf lookupCommitReferenceByName items i = .ok s) : s.Below i := by
  induction i generalizing s with
  | zero =>
    cases hrun
    refine ⟨?_, ?_⟩
    · intro subject t ht
      cases ht
    · intro commit t ht
      cases ht
  | succ i ih =>
    obtain ⟨s₁, hbefore, ⟨-, rfl⟩ | ⟨item, -, hstep⟩⟩ := run_succ_eq hrun
    · exact ⟨fun subject t ht => Nat.lt_succ_of_lt ((ih hbefore).titles subject t ht),
        fun commit t ht => Nat.lt_succ_of_lt ((ih hbefore).commits commit t ht)⟩
    · exact step_below (ih hbefore) hstep

lemma squashTarget_lt (htarget : squashTarget subjectOf lookupCommitReferenceByName items i = some t) : t < i := by
  rw [squashTarget] at htarget
  cases hrun : Rearrangement.run subjectOf lookupCommitReferenceByName items i with
  | error items' =>
    rw [hrun] at htarget
    cases htarget
  | ok s =>
    rw [hrun] at htarget
    obtain ⟨item, -, hitem⟩ := Option.bind_eq_some_iff.mp htarget
    obtain ⟨commit, -, hcommit⟩ := Option.bind_eq_some_iff.mp hitem
    split_ifs at hcommit
    have hbelow : ({ s with subjects := Function.update s.subjects i (some (subjectOf commit)) } :
        Rearrangement Commit).Below i := ⟨(run_below hrun).titles, (run_below hrun).commits⟩
    exact hbelow.findTarget_lt hcommit

variable (subjectOf lookupCommitReferenceByName items)

structure LoopInv (s : Rearrangement Commit) (i : Nat) (groups : List (List Nat)) : Prop where
  order : Rearranged (squashTarget subjectOf lookupCommitReferenceByName items) i groups
  links : ∀ g ∈ groups, LinksThrough s.next g
  fresh : ∀ k, i ≤ k → s.next k = none
  tails : ∀ t, s.tail t = (children (squashTarget subjectOf lookupCommitReferenceByName items) i t).getLast?
  length : s.items.length = items.length
  done : ∀ k item, k < i → items[k]? = some item → ∃ item', s.items[k]? = some item' ∧
    Becomes subjectOf (squashTarget subjectOf lookupCommitReferenceByName items k) item item'
  untouched : ∀ k, i ≤ k → s.items[k]? = items[k]?
  plain : ∀ k item, k < i → items[k]? = some item → item.commit.isSome → isFixup item.command = false
  rearranged : s.rearranged = false → ∀ k < i, squashTarget subjectOf lookupCommitReferenceByName items k = none

variable {subjectOf lookupCommitReferenceByName items}

lemma LoopInv.init : LoopInv subjectOf lookupCommitReferenceByName items (.init items) 0 [] :=
  { order := Rearranged.zero _
    links := fun _ hg => absurd hg List.not_mem_nil
    fresh := fun _ _ => rfl
    tails := fun _ => rfl
    length := rfl
    done := fun _ _ hk => absurd hk (Nat.not_lt_zero _)
    untouched := fun _ _ => rfl
    plain := fun _ _ hk => absurd hk (Nat.not_lt_zero _)
    rearranged := fun _ _ hk => absurd hk (Nat.not_lt_zero _) }

variable {groups : List (List Nat)}

lemma LoopInv.keep (h : LoopInv subjectOf lookupCommitReferenceByName items s i groups)
    (hitem : s.items[i]? = some item) (hplain : item.commit.isSome → isFixup item.command = false)
    (htarget : squashTarget subjectOf lookupCommitReferenceByName items i = none)
    (hitems : s'.items = s.items) (hnext : s'.next = s.next) (htail : s'.tail = s.tail)
    (hrearranged : s'.rearranged = s.rearranged) :
    LoopInv subjectOf lookupCommitReferenceByName items s' (i + 1) (groups ++ [[i]]) where
  order := h.order.keep (fun _ _ => squashTarget_lt) htarget
  links g hg := by
    rw [hnext]
    obtain hg | hg := List.mem_append.mp hg
    · exact h.links g hg
    · rw [List.mem_singleton.mp hg]
      exact ⟨h.fresh i le_rfl, trivial⟩
  fresh k hk := by
    rw [hnext]
    exact h.fresh k (by omega)
  tails t := by
    rw [htail, h.tails, children_succ, htarget, if_neg (by simp), List.append_nil]
  length := by rw [hitems, h.length]
  done k old hk hold := by
    rw [hitems]
    obtain hk | rfl := Nat.lt_succ_iff_lt_or_eq.mp hk
    · exact h.done k old hk hold
    · rw [htarget, h.untouched k le_rfl]
      exact ⟨old, hold, rfl⟩
  untouched k hk := by
    rw [hitems]
    exact h.untouched k (by omega)
  plain k old hk hold := by
    obtain hk | rfl := Nat.lt_succ_iff_lt_or_eq.mp hk
    · exact h.plain k old hk hold
    · rw [h.untouched k le_rfl, hold] at hitem
      cases hitem
      exact hplain
  rearranged hfalse k hk := by
    obtain hk | rfl := Nat.lt_succ_iff_lt_or_eq.mp hk
    · exact h.rearranged (hrearranged ▸ hfalse) k hk
    · exact htarget

lemma LoopInv.attach {commit : Commit}
    (h : LoopInv subjectOf lookupCommitReferenceByName items s i groups)
    (hitem : s.items[i]? = some item) (hplain : item.commit.isSome → isFixup item.command = false)
    (htarget : squashTarget subjectOf lookupCommitReferenceByName items i = some t) (hcommit : item.commit = some commit)
    (hsubject : (skipFixupish (subjectOf commit)).isSome)
    (hitems : s'.items = s.items.modify i fun item => item.squash (subjectOf commit))
    (hnext : s'.next = linkAfter s.next ((s.tail t).getD t) i) (htail : s'.tail = Function.update s.tail t (some i))
    (hrearranged : s'.rearranged = true) :
    LoopInv subjectOf lookupCommitReferenceByName items s' (i + 1)
      (groups.map (insertAfter ((s.tail t).getD t) i)) where
  order := by
    rw [h.tails]
    exact h.order.attach (fun _ _ => squashTarget_lt) htarget
  links g' hg' := by
    obtain ⟨g, hg, rfl⟩ := List.mem_map.mp hg'
    have hsub : g.Sublist groups.flatten := List.sublist_flatten_of_mem hg
    rw [hnext]
    refine (h.links g hg).linkAfter (hsub.nodup h.order.nodup) fun hi => ?_
    exact Nat.lt_irrefl i (h.order.mem_iff.mp (hsub.subset hi))
  fresh k hk := by
    have hti := squashTarget_lt htarget
    have hlast : (s.tail t).getD t < i := by
      cases htl : s.tail t with
      | none => exact hti
      | some e =>
        rw [h.tails] at htl
        exact (mem_children.mp (List.mem_of_getLast? htl)).1
    rw [hnext, linkAfter, Function.update_of_ne (by omega), Function.update_of_ne (by omega)]
    exact h.fresh k (by omega)
  tails t' := by
    rw [htail, children_succ, htarget]
    by_cases heq : t' = t
    · rw [heq, Function.update_self, if_pos rfl, List.getLast?_concat]
    · rw [Function.update_of_ne heq, if_neg (fun hsame => heq (Option.some.inj hsame).symm), List.append_nil]
      exact h.tails t'
  length := by rw [hitems, List.length_modify, h.length]
  done k old hk hold := by
    rw [hitems]
    obtain hk | rfl := Nat.lt_succ_iff_lt_or_eq.mp hk
    · rw [List.getElem?_modify_ne _ _ (by omega)]
      exact h.done k old hk hold
    · rw [h.untouched k le_rfl, hold] at hitem
      cases hitem
      refine ⟨item.squash (subjectOf commit), ?_, ?_⟩
      · rw [List.getElem?_modify_eq, h.untouched k le_rfl, hold]
        rfl
      · rw [htarget]
        exact ⟨commit, hcommit, hsubject, rfl⟩
  untouched k hk := by
    rw [hitems, List.getElem?_modify_ne _ _ (by omega)]
    exact h.untouched k (by omega)
  plain k old hk hold := by
    obtain hk | rfl := Nat.lt_succ_iff_lt_or_eq.mp hk
    · exact h.plain k old hk hold
    · rw [h.untouched k le_rfl, hold] at hitem
      cases hitem
      exact hplain
  rearranged hfalse := by
    rw [hrearranged] at hfalse
    cases hfalse

lemma LoopInv.next_step (h : LoopInv subjectOf lookupCommitReferenceByName items s i groups)
    (hrun : Rearrangement.run subjectOf lookupCommitReferenceByName items i = .ok s) (hitem : s.items[i]? = some item)
    (hstep : s.step subjectOf lookupCommitReferenceByName i item = .ok s') :
    ∃ groups', LoopInv subjectOf lookupCommitReferenceByName items s' (i + 1) groups' := by
  have htarget : squashTarget subjectOf lookupCommitReferenceByName items i =
      s.target subjectOf lookupCommitReferenceByName i item := by
    rw [squashTarget, hrun]
    simp only [hitem, Option.bind_some]
  obtain ⟨hplain, ⟨hnone, hitems, hnext, htail, hsame⟩ |
    ⟨t, commit, hsome, hcommit, hsubject, hitems, hnext, htail, htrue⟩⟩ := step_cases hstep
  · exact ⟨_, h.keep hitem hplain (htarget.trans hnone) hitems hnext htail hsame⟩
  · exact ⟨_, h.attach hitem hplain (htarget.trans hsome) hcommit hsubject hitems hnext htail htrue⟩

lemma run_inv (hi : i ≤ items.length) (hrun : Rearrangement.run subjectOf lookupCommitReferenceByName items i = .ok s) :
    ∃ groups, LoopInv subjectOf lookupCommitReferenceByName items s i groups := by
  induction i generalizing s with
  | zero =>
    cases hrun
    exact ⟨[], .init⟩
  | succ i ih =>
    obtain ⟨s₁, hbefore, ⟨hnone, -⟩ | ⟨item, hitem, hstep⟩⟩ := run_succ_eq hrun
    · obtain ⟨groups, hinv⟩ := ih (by omega) hbefore
      rw [List.getElem?_eq_none_iff, hinv.length] at hnone
      omega
    · obtain ⟨groups, hinv⟩ := ih (by omega) hbefore
      exact hinv.next_step hbefore hitem hstep

lemma run_error {items' : List (TodoItem Commit)} (hi : i ≤ items.length)
    (hrun : Rearrangement.run subjectOf lookupCommitReferenceByName items i = .error items') :
    ∃ k s groups, k ≤ items.length ∧ s.items = items' ∧ LoopInv subjectOf lookupCommitReferenceByName items s k groups := by
  induction i with
  | zero => cases hrun
  | succ i ih =>
    rw [Rearrangement.run] at hrun
    cases hbefore : Rearrangement.run subjectOf lookupCommitReferenceByName items i with
    | error items₁ =>
      rw [hbefore] at hrun
      cases hrun
      exact ih (by omega) hbefore
    | ok s =>
      obtain ⟨groups, hinv⟩ := run_inv (by omega) hbefore
      refine ⟨i, s, groups, by omega, ?_, hinv⟩
      rw [hbefore] at hrun
      change (match s.items[i]? with
        | none => Except.ok s
        | some item => s.step subjectOf lookupCommitReferenceByName i item) = .error items' at hrun
      split at hrun
      · cases hrun
      · rw [Rearrangement.step] at hrun
        split at hrun
        · cases hrun
        · split_ifs at hrun
          exact Except.error.inj hrun

omit [DecidableEq Commit] in
lemma isFixup_squash (item : TodoItem Commit) (subject : List UInt8) : isFixup (item.squash subject).command := by
  rw [TodoItem.squash]
  split_ifs <;> rfl

lemma forall₂_filterMap {α β : Type*} {R : α → β → Prop} {f : α → Option β} {l : List α}
    (h : ∀ a ∈ l, ∃ b, f a = some b ∧ R a b) : List.Forall₂ R l (l.filterMap f) := by
  induction l with
  | nil => exact .nil
  | cons a l ih =>
    obtain ⟨b, hb, hr⟩ := h a List.mem_cons_self
    rw [List.filterMap_cons, hb]
    exact .cons hr (ih fun c hc => h c (List.mem_cons_of_mem a hc))

lemma filterMap_range {α : Type*} (l : List α) : (List.range l.length).filterMap (l[·]?) = l := by
  induction l using List.reverseRecOn with
  | nil => rfl
  | append_singleton l a ih =>
    have hsame : (List.range l.length).filterMap ((l ++ [a])[·]?) = (List.range l.length).filterMap (l[·]?) :=
      List.filterMap_congr fun i hi => List.getElem?_append_left (List.mem_range.mp hi)
    rw [List.length_append, List.length_singleton, List.range_succ, List.filterMap_append, hsame, ih]
    simp

lemma LoopInv.collect_eq
    (h : LoopInv subjectOf lookupCommitReferenceByName items s items.length groups)
    (hcommit : ∀ item ∈ items, isFixup item.command → item.commit.isSome) :
    s.collect = some (groups.flatten.filterMap (s.items[·]?)) := by
  have hroots : ((List.range s.items.length).filter fun i => (s.items[i]?).any fun item => !isFixup item.command) =
      (List.range items.length).filter fun i =>
        (squashTarget subjectOf lookupCommitReferenceByName items i).isNone := by
    rw [h.length]
    refine List.filter_congr fun i hi => ?_
    have hlt := List.mem_range.mp hi
    have hitem : items[i]? = some items[i] := List.getElem?_eq_getElem hlt
    obtain ⟨item', hitem', hbecomes⟩ := h.done i _ hlt hitem
    rw [hitem', Option.any_some]
    cases htarget : squashTarget subjectOf lookupCommitReferenceByName items i with
    | none =>
      rw [htarget] at hbecomes
      have hsame : item' = items[i] := hbecomes
      have hplain : isFixup item'.command = false := by
        rw [hsame]
        cases hfixup : isFixup items[i].command with
        | false => rfl
        | true =>
          rw [h.plain i _ hlt hitem (hcommit _ (List.getElem_mem hlt) hfixup)] at hfixup
          cases hfixup
      rw [hplain]
      rfl
    | some t =>
      rw [htarget] at hbecomes
      obtain ⟨commit, -, -, rfl⟩ := hbecomes
      rw [isFixup_squash]
      rfl
  have hfuel : ∀ g ∈ groups, g.length ≤ s.items.length := fun g hg => by
    have hle := (List.sublist_flatten_of_mem hg).length_le
    rw [h.order.perm.length_eq, List.length_range] at hle
    rw [h.length]
    exact hle
  rw [Rearrangement.collect, hroots, mapM_follow h.order.kept h.links hfuel]
  rfl

variable (subjectOf lookupCommitReferenceByName items)

/-- The list fails and keeps its items at their places, or its items are brought into the order of the groups; only
items whose subject begins with one of the words are changed, into a fixup or a squash. -/
theorem todoListRearrangeSquash_rearranges (hcommit : ∀ item ∈ items, isFixup item.command → item.commit.isSome) :
    (∃ items', todoListRearrangeSquash subjectOf lookupCommitReferenceByName items = .alreadyRearranged items' ∧
      List.Forall₂ (fun item item' => ∃ target, Becomes subjectOf target item item') items items') ∨
    ∃ items' groups, todoListRearrangeSquash subjectOf lookupCommitReferenceByName items = .done items' ∧
      Rearranged (squashTarget subjectOf lookupCommitReferenceByName items) items.length groups ∧
      List.Forall₂ (fun i item' => ∃ item, items[i]? = some item ∧
        Becomes subjectOf (squashTarget subjectOf lookupCommitReferenceByName items i) item item')
        groups.flatten items' := by
  rw [todoListRearrangeSquash]
  cases hrun : Rearrangement.run subjectOf lookupCommitReferenceByName items items.length with
  | error items' =>
    obtain ⟨k, s, groups, hk, rfl, hinv⟩ := run_error le_rfl hrun
    refine .inl ⟨_, rfl, List.forall₂_iff_get.mpr ⟨hinv.length.symm, fun i hi hi' => ?_⟩⟩
    have hitem : items[i]? = some items[i] := List.getElem?_eq_getElem hi
    have hitem' : s.items[i]? = some s.items[i] := List.getElem?_eq_getElem hi'
    by_cases hlt : i < k
    · obtain ⟨item', hfound, hbecomes⟩ := hinv.done i _ hlt hitem
      rw [hitem'] at hfound
      exact ⟨_, Option.some.inj hfound ▸ hbecomes⟩
    · have hsame := hinv.untouched i (Nat.not_lt.mp hlt)
      rw [hitem, hitem'] at hsame
      exact ⟨none, Option.some.inj hsame⟩
  | ok s =>
    obtain ⟨groups, hinv⟩ := run_inv le_rfl hrun
    have hbecomes : List.Forall₂ (fun i item' => ∃ item, items[i]? = some item ∧
        Becomes subjectOf (squashTarget subjectOf lookupCommitReferenceByName items i) item item')
        groups.flatten (groups.flatten.filterMap (s.items[·]?)) := by
      refine forall₂_filterMap fun i hi => ?_
      have hlt := hinv.order.mem_iff.mp hi
      have hitem : items[i]? = some items[i] := List.getElem?_eq_getElem hlt
      obtain ⟨item', hitem', hb⟩ := hinv.done i _ hlt hitem
      exact ⟨item', hitem', _, hitem, hb⟩
    refine .inr ⟨_, groups, ?_, hinv.order, hbecomes⟩
    by_cases hmoved : s.rearranged
    · have hlength : (groups.flatten.filterMap (s.items[·]?)).length = items.length := by
        rw [← hbecomes.length_eq, hinv.order.perm.length_eq, List.length_range]
      simp only [hmoved, if_true, hinv.collect_eq hcommit, if_pos hlength]
    · have hnone := hinv.rearranged (Bool.eq_false_iff.mpr hmoved)
      have hall : ((List.range items.length).filter fun i =>
          (squashTarget subjectOf lookupCommitReferenceByName items i).isNone) = List.range items.length := by
        refine List.filter_eq_self.mpr fun i hi => ?_
        rw [hnone i (List.mem_range.mp hi)]
        rfl
      have hflat : groups.flatten = List.range s.items.length := by
        rw [hinv.length]
        refine flatten_of_heads (hall ▸ hinv.order.kept) fun g hg => ?_
        refine List.eq_nil_iff_forall_not_mem.mpr fun i hi => ?_
        obtain ⟨t, -, htarget⟩ := hinv.order.within g hg i hi
        have hlt := hinv.order.mem_iff.mp (List.mem_flatten.mpr ⟨g, hg, List.mem_of_mem_tail hi⟩)
        rw [hnone i hlt] at htarget
        cases htarget
      simp only [hmoved, hflat, filterMap_range]
      rfl

end Loop

section Examples

def newItem (command : TodoCommand) (commit : Option Bool) : TodoItem Bool := ⟨command, commit, 0, 0, 0, 0⟩

/-- The subjects `a` and `fixup! a`. -/
def subjectOfNew (commit : Bool) : List UInt8 := if commit then fixupBang ++ [space, 0x61] else [0x61]

def picks : List (TodoItem Bool) := [newItem .pick (some false), newItem .pick (some true)]

lemma skipAllFixupish_a : skipAllFixupish [0x61] = [0x61] := by
  rw [skipAllFixupish]
  rfl

theorem todoListRearrangeSquash_rearranges_picks :
    (∃ items', todoListRearrangeSquash subjectOfNew (fun _ => none) picks = .alreadyRearranged items' ∧
      List.Forall₂ (fun item item' => ∃ target, Becomes subjectOfNew target item item') picks items') ∨
    ∃ items' groups, todoListRearrangeSquash subjectOfNew (fun _ => none) picks = .done items' ∧
      Rearranged (squashTarget subjectOfNew (fun _ => none) picks) picks.length groups ∧
      List.Forall₂ (fun i item' => ∃ item, picks[i]? = some item ∧
        Becomes subjectOfNew (squashTarget subjectOfNew (fun _ => none) picks i) item item') groups.flatten items' :=
  todoListRearrangeSquash_rearranges subjectOfNew (fun _ => none) picks (by decide)

lemma run_two (rest : List (TodoItem Bool)) :
    Rearrangement.run subjectOfNew (fun _ => none) (picks ++ rest) 2 =
      .ok { items := newItem .pick (some false) :: newItem .fixup (some true) :: rest
            subject2item := [([0x61], 0)]
            commitTodo := Function.update (Function.update (fun _ => none) false (some 0)) true (some 1)
            next := linkAfter (fun _ => none) 0 1
            tail := Function.update (fun _ => none) 0 (some 1)
            subjects := Function.update (Function.update (fun _ => none) 0 (some [0x61])) 1 (some (subjectOfNew true))
            rearranged := true } := by
  have hone : Rearrangement.run subjectOfNew (fun _ => none) (picks ++ rest) 1 =
      .ok { items := newItem .pick (some false) :: newItem .pick (some true) :: rest
            subject2item := [([0x61], 0)]
            commitTodo := Function.update (fun _ => none) false (some 0)
            next := fun _ => none
            tail := fun _ => none
            subjects := Function.update (fun _ => none) 0 (some [0x61])
            rearranged := false } := rfl
  have hsubject : skipFixupish (subjectOfNew true) = some [0x61] := by decide
  rw [Rearrangement.run, hone]
  simp only [bind, Except.bind, List.getElem?_cons_succ, List.getElem?_cons_zero, Rearrangement.step, newItem,
    Rearrangement.findTarget, hsubject, skipAllFixupish_a]
  rfl

/-- Where a fixup is found behind an item that was turned into one, the list is left with that; and a fixup that has no
commit is lost. -/
theorem todoListRearrangeSquash_changes :
    todoListRearrangeSquash subjectOfNew (fun _ => none) (picks ++ [newItem .fixup (some false)]) =
      .alreadyRearranged [newItem .pick (some false), newItem .fixup (some true), newItem .fixup (some false)] ∧
    todoListRearrangeSquash subjectOfNew (fun _ => none) (picks ++ [newItem .fixup none]) = .assertionFailed := by
  have hlength : ∀ item, (picks ++ [item]).length = 2 + 1 := fun _ => rfl
  constructor
  · rw [todoListRearrangeSquash, hlength, Rearrangement.run, run_two]
    rfl
  · rw [todoListRearrangeSquash, hlength, Rearrangement.run, run_two]
    rfl

end Examples

end GitCore.Todo
