import GitCore.Reach.Subset

/-!
# The skipping negotiator

`negotiator/skipping.c`: which commits are sent as `have` lines, with ever larger gaps between them.
-/

namespace GitCore.Negotiator

open Reach (CommitDag prioQueuePut Reaches)

structure Entry (C : Type) where
  commit : C
  originalTtl : Nat
  ttl : Nat

structure Data (C : Type) where
  revList : List (Entry C)
  nonCommonRevs : Int
  common : Finset C
  advertised : Finset C
  seen : Finset C
  popped : Finset C
  parsed : Finset C

variable {C : Type} [DecidableEq C] (dag : CommitDag C)

/-- `commit->date`, which is zero before the commit is parsed. -/
def Data.date (data : Data C) (c : C) : Nat := if c ∈ data.parsed then dag.date c else 0

def revListPush (data : Data C) (commit : C) (advertised : Bool) : Data C × Entry C :=
  let entry : Entry C := ⟨commit, 0, 0⟩
  ({ data with
      seen := insert commit data.seen
      advertised := if advertised then insert commit data.advertised else data.advertised
      revList := prioQueuePut (fun a b => data.date dag b.commit ≤ data.date dag a.commit) entry data.revList
      nonCommonRevs := data.nonCommonRevs + 1 }, entry)

/-- The parents that are seen and not common yet become common and go on the stack. -/
def markParents : List C → Data C → List C → Data C × List C
  | [], data, stack => (data, stack)
  | p :: parents, data, stack =>
    if p ∉ data.seen ∨ p ∈ data.common then markParents parents data stack
    else markParents parents { data with common := insert p data.common } (p :: stack)

def markSize (data : Data C) (stack : List C) : Nat := 2 * (data.seen \ data.common).card + stack.length

lemma markParents_size (parents : List C) (data : Data C) (stack : List C) :
    markSize (markParents parents data stack).1 (markParents parents data stack).2 ≤ markSize data stack := by
  induction parents generalizing data stack with
  | nil => exact le_rfl
  | cons p parents ih =>
    rw [markParents]
    split_ifs with hp
    · exact ih data stack
    · obtain ⟨hseen, hcommon⟩ := not_or.mp hp
      refine (ih _ _).trans ?_
      have hmem : p ∈ data.seen \ data.common := Finset.mem_sdiff.mpr ⟨not_not.mp hseen, hcommon⟩
      have hcard := Finset.card_erase_lt_of_mem hmem
      simp only [markSize, List.length_cons, Finset.sdiff_insert]
      omega

def markStack (data : Data C) (stack : List C) : Data C :=
  match stack with
  | [] => data
  | c :: stack =>
    let data₁ := if c ∉ data.popped then { data with nonCommonRevs := data.nonCommonRevs - 1 } else data
    let next := markParents (if c ∈ data.parsed then dag.parents c else []) data₁ stack
    markStack next.1 next.2
termination_by markSize data stack
decreasing_by
  refine (markParents_size _ _ _).trans_lt ?_
  simp only [markSize, List.length_cons]
  split_ifs <;> exact Nat.lt_succ_self _

def markCommon (data : Data C) (seenCommit : C) : Data C :=
  if seenCommit ∈ data.common then data
  else markStack dag { data with common := insert seenCommit data.common } [seenCommit]

def Entry.newOriginalTtl (entry : Entry C) : Nat :=
  if entry.ttl ≠ 0 then entry.originalTtl else (entry.originalTtl * 3 / 2 + 1) % 2 ^ 16

def Entry.newTtl (entry : Entry C) : Nat := if entry.ttl ≠ 0 then entry.ttl - 1 else entry.newOriginalTtl

/-- The end of `push_parent`: the parent becomes common, or gets the larger of two times to live. -/
def passOn (data : Data C) (entry parentEntry : Entry C) : Data C :=
  if entry.commit ∈ data.common ∨ entry.commit ∈ data.advertised then markCommon dag data parentEntry.commit
  else if parentEntry.originalTtl < entry.newOriginalTtl then
    { data with
      revList := data.revList.map fun e =>
        if e.commit = parentEntry.commit then ⟨e.commit, entry.newOriginalTtl, entry.newTtl⟩ else e }
  else data

def pushParent (data : Data C) (entry : Entry C) (toPush : C) : Option (Data C × Bool) :=
  if toPush ∈ data.seen then
    if toPush ∈ data.popped then some (data, false)
    else (data.revList.find? fun e => e.commit = toPush).map fun parentEntry =>
      (passOn dag data entry parentEntry, true)
  else
    let pushed := revListPush dag data toPush false
    some (passOn dag pushed.1 entry pushed.2, true)

/-- `push_parent` for all parents, and whether one was found or created. -/
def pushParents (entry : Entry C) : List C → Data C → Bool → Option (Data C × Bool)
  | [], data, parentPushed => some (data, parentPushed)
  | p :: parents, data, parentPushed =>
    (pushParent dag data entry p).bind fun result => pushParents entry parents result.1 (parentPushed || result.2)

def popEntry (data : Data C) (entry : Entry C) (rest : List (Entry C)) : Data C :=
  { data with
    revList := rest
    popped := insert entry.commit data.popped
    parsed := insert entry.commit data.parsed
    nonCommonRevs := if entry.commit ∈ data.common then data.nonCommonRevs else data.nonCommonRevs - 1 }

variable {dag}

lemma markParents_same (parents : List C) (data : Data C) (stack : List C) :
    (markParents parents data stack).1 = { data with common := (markParents parents data stack).1.common } := by
  induction parents generalizing data stack with
  | nil => rfl
  | cons p parents ih =>
    rw [markParents]
    split_ifs
    · exact ih data stack
    · exact ih { data with common := insert p data.common } (p :: stack)

lemma markStack_same (data : Data C) (stack : List C) :
    ∃ common n, markStack dag data stack = { data with common := common, nonCommonRevs := n } := by
  fun_induction markStack dag data stack with
  | case1 data => exact ⟨data.common, data.nonCommonRevs, rfl⟩
  | case2 data c stack data₁ next ih =>
    obtain ⟨common, n, heq⟩ := ih
    refine ⟨common, n, heq.trans ?_⟩
    have hdata₁ : data₁ = { data with nonCommonRevs := data₁.nonCommonRevs } := by
      simp only [data₁]
      split <;> rfl
    rw [markParents_same, hdata₁]

lemma markCommon_same (data : Data C) (c : C) :
    ∃ common n, markCommon dag data c = { data with common := common, nonCommonRevs := n } := by
  rw [markCommon]
  split_ifs
  · exact ⟨data.common, data.nonCommonRevs, rfl⟩
  · exact markStack_same _ _

lemma passOn_same (data : Data C) (entry parentEntry : Entry C) :
    (passOn dag data entry parentEntry).seen = data.seen ∧ (passOn dag data entry parentEntry).popped = data.popped ∧
      (passOn dag data entry parentEntry).advertised = data.advertised ∧
      (passOn dag data entry parentEntry).revList.map Entry.commit = data.revList.map Entry.commit := by
  rw [passOn]
  split_ifs
  · obtain ⟨common, n, heq⟩ := @markCommon_same _ _ dag data parentEntry.commit
    rw [heq]
    exact ⟨rfl, rfl, rfl, rfl⟩
  · refine ⟨rfl, rfl, rfl, ?_⟩
    rw [List.map_map]
    refine List.map_congr_left fun e _ => ?_
    simp only [Function.comp_apply]
    split <;> rfl
  · exact ⟨rfl, rfl, rfl, rfl⟩

section Loop

variable [Fintype C]

def Data.size (data : Data C) : Nat := 2 * data.seenᶜ.card + data.revList.length

variable {data : Data C}

lemma pushParent_size {entry : Entry C} {p : C} {result : Data C × Bool}
    (h : pushParent dag data entry p = some result) : result.1.size ≤ data.size := by
  rw [pushParent] at h
  have hpass : ∀ data' parentEntry, (passOn dag data' entry parentEntry).size = data'.size := fun data' parentEntry => by
    obtain ⟨hseen, -, -, hlist⟩ := @passOn_same _ _ dag data' entry parentEntry
    have hlength := congrArg List.length hlist
    rw [List.length_map, List.length_map] at hlength
    rw [Data.size, Data.size, hseen, hlength]
  split_ifs at h with hseen hpopped
  · cases h
    exact le_rfl
  · obtain ⟨parentEntry, -, rfl⟩ := Option.map_eq_some_iff.mp h
    exact (hpass data parentEntry).le
  · cases h
    refine (hpass _ _).le.trans ?_
    have hcard := Finset.card_erase_lt_of_mem (Finset.mem_compl.mpr hseen)
    rw [← Finset.compl_insert] at hcard
    simp only [Data.size, revListPush, Reach.length_prioQueuePut]
    omega

lemma pushParents_size {entry : Entry C} {parents : List C} {data : Data C} {parentPushed : Bool}
    {result : Data C × Bool} (h : pushParents dag entry parents data parentPushed = some result) :
    result.1.size ≤ data.size := by
  induction parents generalizing data parentPushed with
  | nil =>
    cases h
    exact le_rfl
  | cons p parents ih =>
    obtain ⟨first, hfirst, hrest⟩ := Option.bind_eq_some_iff.mp h
    exact (ih hrest).trans (pushParent_size hfirst)

end Loop

variable (dag)

inductive Rev (C : Type) where
  | bug
  | null (data : Data C)
  | send (commit : C) (data : Data C)

def getRev [Fintype C] (data : Data C) : Rev C :=
  match _hlist : data.revList with
  | [] => .null data
  | entry :: rest =>
    if data.nonCommonRevs = 0 then .null data
    else
      match _hparents : pushParents dag entry (dag.parents entry.commit) (popEntry data entry rest) false with
      | none => .bug
      | some (data', parentPushed) =>
        if entry.commit ∉ data.common ∧ entry.ttl = 0 ∨ entry.commit ∉ data'.common ∧ parentPushed = false then
          .send entry.commit data'
        else getRev data'
termination_by data.size
decreasing_by
  have hle := pushParents_size _hparents
  simp only [Data.size, popEntry, _hlist, List.length_cons] at hle ⊢
  omega

def knownCommon (data : Data C) (c : C) : Data C := if c ∈ data.seen then data else (revListPush dag data c true).1

def addTip (data : Data C) (c : C) : Data C := if c ∈ data.seen then data else (revListPush dag data c false).1

def ack (data : Data C) (c : C) : Option (Bool × Data C) :=
  if c ∉ data.seen then none else some (decide (c ∈ data.common), markCommon dag data c)

def skippingNegotiatorInit (parsed : Finset C) : Data C := ⟨[], 0, ∅, ∅, ∅, ∅, parsed⟩

end GitCore.Negotiator

/-!
# What the skipping negotiator keeps

The counter is the number of queued commits that are not common, and what was popped from the queue has its parents
seen. So when nothing is left to send, all histories of the tips are known to end in commits that both sides know of.
-/

namespace GitCore.Negotiator

open Reach (CommitDag prioQueuePut Reaches perm_prioQueuePut not_properAncestor_self)

variable {C : Type} [DecidableEq C] {dag : CommitDag C}

def Data.queue (data : Data C) : List C := data.revList.map Entry.commit

def uncommon (queue : List C) (common : Finset C) : Nat := (queue.filter fun c => c ∉ common).length

lemma uncommon_insert_of_mem {queue : List C} {common : Finset C} {p : C} (hnodup : queue.Nodup) (hp : p ∈ queue)
    (hcommon : p ∉ common) : uncommon queue (insert p common) + 1 = uncommon queue common := by
  have hsplit : (queue.filter fun c => c ∉ insert p common) = (queue.filter fun c => c ∉ common).erase p := by
    rw [(hnodup.filter _).erase_eq_filter, List.filter_filter]
    refine List.filter_congr fun c _ => ?_
    by_cases hcp : c = p
    · simp [hcp]
    · simp [hcp]
  have hmem : p ∈ queue.filter fun c => c ∉ common := List.mem_filter.mpr ⟨hp, by simpa using hcommon⟩
  rw [uncommon, hsplit, List.length_erase_of_mem hmem, uncommon]
  have := List.length_pos_of_mem hmem
  omega

lemma uncommon_insert_of_not_mem {queue : List C} {common : Finset C} {p : C} (hp : p ∉ queue) :
    uncommon queue (insert p common) = uncommon queue common := by
  refine congrArg List.length (List.filter_congr fun c hc => ?_)
  have hne : c ≠ p := fun heq => hp (heq ▸ hc)
  simp [Finset.mem_insert, hne]

structure Kept (data : Data C) : Prop where
  nodup : data.queue.Nodup
  queued : ∀ c, c ∈ data.queue ↔ c ∈ data.seen ∧ c ∉ data.popped
  popped_seen : data.popped ⊆ data.seen
  common_seen : data.common ⊆ data.seen
  advertised_seen : data.advertised ⊆ data.seen
  counted : data.nonCommonRevs = uncommon data.queue data.common

structure Marking (P : C → Prop) (start data : Data C) (stack : List C) : Prop where
  same : data = { start with common := data.common, nonCommonRevs := data.nonCommonRevs }
  counted : data.nonCommonRevs = uncommon start.queue data.common + (stack.filter fun c => c ∉ start.popped).length
  onStack : ∀ c ∈ stack, P c
  grows : start.common ⊆ data.common
  new : ∀ c ∈ data.common, c ∈ start.common ∨ P c
  seen : data.common ⊆ start.seen

variable {P : C → Prop}

lemma Marking.insert {start data : Data C} {stack : List C} {p : C} (hstart : Kept start)
    (h : Marking P start data stack) (hp : P p) (hseen : p ∈ start.seen) (hcommon : p ∉ data.common) :
    Marking P start { data with common := insert p data.common } (p :: stack) where
  same := by
    rw [h.same]
  counted := by
    simp only []
    rw [h.counted]
    by_cases hpopped : p ∈ start.popped
    · have hout : p ∉ start.queue := fun hin => ((hstart.queued p).mp hin).2 hpopped
      rw [uncommon_insert_of_not_mem hout, List.filter_cons_of_neg (by simpa using hpopped)]
    · have hin : p ∈ start.queue := (hstart.queued p).mpr ⟨hseen, hpopped⟩
      have := uncommon_insert_of_mem hstart.nodup hin hcommon
      rw [List.filter_cons_of_pos (by simpa using hpopped), List.length_cons]
      omega
  onStack c hc := by
    obtain rfl | hc := List.mem_cons.mp hc
    · exact hp
    · exact h.onStack c hc
  grows := h.grows.trans (Finset.subset_insert p data.common)
  new c hc := by
    obtain rfl | hc := Finset.mem_insert.mp hc
    · exact .inr hp
    · exact h.new c hc
  seen := Finset.insert_subset hseen h.seen

lemma Marking.markParents {start data : Data C} {stack parents : List C} (hstart : Kept start)
    (h : Marking P start data stack) (hparents : ∀ p ∈ parents, P p) :
    Marking P start (markParents parents data stack).1 (markParents parents data stack).2 := by
  induction parents generalizing data stack with
  | nil => exact h
  | cons p parents ih =>
    rw [GitCore.Negotiator.markParents]
    have hrest : ∀ q ∈ parents, P q := fun q hq => hparents q (List.mem_cons_of_mem p hq)
    split_ifs with hskip
    · exact ih h hrest
    · obtain ⟨hseen, hcommon⟩ := not_or.mp hskip
      rw [not_not, h.same] at hseen
      exact ih (h.insert hstart (hparents p List.mem_cons_self) hseen hcommon) hrest

lemma Marking.markStack {start data : Data C} {stack : List C} (hstart : Kept start)
    (hclosed : ∀ c, P c → ∀ p ∈ dag.parents c, P p) (h : Marking P start data stack) :
    Marking P start (markStack dag data stack) [] := by
  fun_induction GitCore.Negotiator.markStack dag data stack with
  | case1 data => exact h
  | case2 data c stack data₁ next ih =>
    have hc := h.onStack c List.mem_cons_self
    have hpopped : data.popped = start.popped := by rw [h.same]
    have hdata₁ : Marking P start data₁ stack := by
      have hrest : ∀ d ∈ stack, P d := fun d hd => h.onStack d (List.mem_cons_of_mem c hd)
      have hcount := h.counted
      by_cases hin : c ∈ data.popped
      · have hsame : data₁ = data := if_neg (not_not.mpr hin)
        rw [List.filter_cons_of_neg (by simpa [hpopped] using hin)] at hcount
        rw [hsame]
        exact ⟨h.same, hcount, hrest, h.grows, h.new, h.seen⟩
      · have hless : data₁ = { data with nonCommonRevs := data.nonCommonRevs - 1 } := if_pos hin
        rw [List.filter_cons_of_pos (by simpa [hpopped] using hin), List.length_cons] at hcount
        rw [hless]
        refine ⟨?_, ?_, hrest, h.grows, h.new, h.seen⟩
        · rw [h.same]
        · simp only []
          omega
    refine ih (hdata₁.markParents hstart fun p hp => ?_)
    split_ifs at hp with hparsed
    · exact hclosed c hc p hp
    · cases hp

lemma Kept.markCommon {c : C} (h : Kept data) (hseen : c ∈ data.seen) :
    Marking (Reaches dag c) data (markCommon dag data c) [] := by
  have hcounted : data.nonCommonRevs = uncommon data.queue data.common + (0 : Nat) := by
    rw [h.counted]
    rfl
  have hsame : Marking (Reaches dag c) data data [] :=
    ⟨rfl, hcounted, fun _ hd => absurd hd List.not_mem_nil, Finset.Subset.refl _, fun _ hd => .inl hd, h.common_seen⟩
  rw [GitCore.Negotiator.markCommon]
  split_ifs with hcommon
  · exact hsame
  · exact (hsame.insert h Relation.ReflTransGen.refl hseen hcommon).markStack h
      fun d hd p hp => hd.tail hp

lemma Marking.kept {start data : Data C} (hstart : Kept start) (h : Marking P start data []) :
    Kept data := by
  have hcounted := h.counted
  rw [List.filter_nil, List.length_nil, Nat.cast_zero, add_zero] at hcounted
  rw [h.same]
  exact ⟨hstart.nodup, hstart.queued, hstart.popped_seen, h.seen, hstart.advertised_seen, hcounted⟩

structure Grown (P : C → Prop) (data data' : Data C) : Prop where
  kept : Kept data'
  seen : data.seen ⊆ data'.seen
  popped : data'.popped = data.popped
  common : data.common ⊆ data'.common
  new : ∀ c ∈ data'.common, c ∈ data.common ∨ P c

lemma Grown.trans {P Q : C → Prop} {data₁ data₂ data₃ : Data C} (h₁ : Grown P data₁ data₂) (h₂ : Grown Q data₂ data₃) :
    Grown (fun c => P c ∨ Q c) data₁ data₃ where
  kept := h₂.kept
  seen := h₁.seen.trans h₂.seen
  popped := h₂.popped.trans h₁.popped
  common := h₁.common.trans h₂.common
  new c hc := by
    obtain hc | hq := h₂.new c hc
    · exact (h₁.new c hc).imp_right .inl
    · exact .inr (.inr hq)

lemma Grown.imp {P Q : C → Prop} {data data' : Data C} (h : Grown P data data') (hPQ : ∀ c, P c → Q c) :
    Grown Q data data' :=
  ⟨h.kept, h.seen, h.popped, h.common, fun c hc => (h.new c hc).imp_right (hPQ c)⟩

lemma Marking.grown {start data : Data C} (hstart : Kept start) (h : Marking P start data []) :
    Grown P start data where
  kept := h.kept hstart
  seen := by rw [h.same]
  popped := by rw [h.same]
  common := h.grows
  new := h.new

lemma Kept.revListPush {c : C} {advertised : Bool} (h : Kept data) (hc : c ∉ data.seen) :
    Grown (fun _ => False) data (revListPush dag data c advertised).1 ∧
      c ∈ (GitCore.Negotiator.revListPush dag data c advertised).1.seen := by
  have hperm : (GitCore.Negotiator.revListPush dag data c advertised).1.queue.Perm (c :: data.queue) :=
    (Reach.perm_prioQueuePut _ _ _).map Entry.commit
  have hqueue : c ∉ data.queue := fun hin => hc ((h.queued c).mp hin).1
  have hcommon : c ∉ data.common := fun hin => hc (h.common_seen hin)
  have hseen : data.seen ⊆ insert c data.seen := Finset.subset_insert c data.seen
  refine ⟨⟨⟨?_, ?_, h.popped_seen.trans hseen, h.common_seen.trans hseen, ?_, ?_⟩, hseen, rfl, Finset.Subset.refl _,
    fun _ hd => .inl hd⟩, Finset.mem_insert_self c data.seen⟩
  · exact hperm.nodup_iff.mpr (List.nodup_cons.mpr ⟨hqueue, h.nodup⟩)
  · intro d
    have hpopped : c ∉ data.popped := fun hin => hc (h.popped_seen hin)
    rw [hperm.mem_iff, List.mem_cons, h.queued d]
    change _ ↔ d ∈ insert c data.seen ∧ d ∉ data.popped
    rw [Finset.mem_insert]
    constructor
    · rintro (rfl | ⟨hd, hout⟩)
      · exact ⟨.inl rfl, hpopped⟩
      · exact ⟨.inr hd, hout⟩
    · rintro ⟨rfl | hd, hout⟩
      · exact .inl rfl
      · exact .inr ⟨hd, hout⟩
  · change (if advertised then insert c data.advertised else data.advertised) ⊆ insert c data.seen
    split_ifs
    · exact Finset.insert_subset_insert c h.advertised_seen
    · exact h.advertised_seen.trans hseen
  · have hcount : uncommon (GitCore.Negotiator.revListPush dag data c advertised).1.queue data.common =
        uncommon data.queue data.common + 1 := by
      rw [uncommon, (hperm.filter _).length_eq, List.filter_cons_of_pos (by simpa using hcommon), List.length_cons,
        uncommon]
    change data.nonCommonRevs + 1 = (uncommon _ data.common : Int)
    rw [hcount, h.counted]
    rfl

lemma Kept.passOn {entry parentEntry : Entry C} (h : Kept data) (hseen : parentEntry.commit ∈ data.seen) :
    Grown (Reaches dag parentEntry.commit) data (passOn dag data entry parentEntry) := by
  rw [GitCore.Negotiator.passOn]
  split_ifs
  · exact (h.markCommon hseen).grown h
  · have hqueue : (data.revList.map fun e => if e.commit = parentEntry.commit then
        ⟨e.commit, entry.newOriginalTtl, entry.newTtl⟩ else e).map Entry.commit = data.queue := by
      rw [List.map_map]
      refine List.map_congr_left fun e _ => ?_
      simp only [Function.comp_apply]
      split <;> rfl
    refine ⟨⟨?_, ?_, h.popped_seen, h.common_seen, h.advertised_seen, ?_⟩, Finset.Subset.refl _, rfl,
      Finset.Subset.refl _, fun _ hd => .inl hd⟩
    · rw [Data.queue, hqueue]
      exact h.nodup
    · intro c
      rw [Data.queue, hqueue]
      exact h.queued c
    · rw [Data.queue, hqueue]
      exact h.counted
  · exact ⟨h, Finset.Subset.refl _, rfl, Finset.Subset.refl _, fun _ hd => .inl hd⟩

lemma Kept.pushParent (entry : Entry C) (p : C) (h : Kept data) :
    ∃ result, pushParent dag data entry p = some result ∧ Grown (Reaches dag p) data result.1 ∧ p ∈ result.1.seen := by
  rw [GitCore.Negotiator.pushParent]
  split_ifs with hseen hpopped
  · exact ⟨_, rfl, ⟨h, Finset.Subset.refl _, rfl, Finset.Subset.refl _, fun _ hd => .inl hd⟩, hseen⟩
  · obtain ⟨e, he, rfl⟩ := List.mem_map.mp ((h.queued p).mpr ⟨hseen, hpopped⟩)
    cases hfind : data.revList.find? fun e' => e'.commit = e.commit with
    | none => exact absurd (decide_eq_true rfl) (List.find?_eq_none.mp hfind e he)
    | some parentEntry =>
      have hcommit : parentEntry.commit = e.commit := by simpa using List.find?_some hfind
      have hgrown := @Kept.passOn _ _ dag _ entry parentEntry h (hcommit ▸ hseen)
      rw [hcommit] at hgrown
      exact ⟨_, rfl, hgrown, hgrown.seen hseen⟩
  · obtain ⟨hpushed, hin⟩ := @Kept.revListPush _ _ dag _ p false h hseen
    have hgrown := @Kept.passOn _ _ dag _ entry
      (GitCore.Negotiator.revListPush dag data p false).2 hpushed.kept hin
    refine ⟨_, rfl, (hpushed.trans hgrown).imp fun c hc => ?_, hgrown.seen hin⟩
    exact hc.resolve_left not_false

lemma Kept.pushParents (entry : Entry C) (parents : List C) (parentPushed : Bool) (h : Kept data) :
    ∃ result, pushParents dag entry parents data parentPushed = some result ∧
      Grown (fun c => ∃ p ∈ parents, Reaches dag p c) data result.1 ∧ (∀ p ∈ parents, p ∈ result.1.seen) ∧
      (parents = [] → result.2 = parentPushed) := by
  induction parents generalizing data parentPushed with
  | nil =>
    exact ⟨_, rfl, ⟨h, Finset.Subset.refl _, rfl, Finset.Subset.refl _, fun _ hd => .inl hd⟩,
      fun _ hp => absurd hp List.not_mem_nil, fun _ => rfl⟩
  | cons p parents ih =>
    obtain ⟨first, hfirst, hgrown, hp⟩ := @Kept.pushParent _ _ dag data entry p h
    obtain ⟨result, hresult, hrest, hparents, -⟩ := ih (parentPushed || first.2) hgrown.kept
    refine ⟨result, ?_, (hgrown.trans hrest).imp ?_, ?_, fun hnil => by cases hnil⟩
    · rw [GitCore.Negotiator.pushParents, hfirst]
      exact hresult
    · rintro c (hc | ⟨q, hq, hc⟩)
      · exact ⟨p, List.mem_cons_self, hc⟩
      · exact ⟨q, List.mem_cons_of_mem p hq, hc⟩
    · intro q hq
      obtain rfl | hq := List.mem_cons.mp hq
      · exact hrest.seen hp
      · exact hparents q hq

/-- Between two calls: the tips are seen, so are the parents of what was popped, and what is returned was popped. -/
structure Settled (dag : CommitDag C) (data : Data C) (tips returned : List C) : Prop where
  kept : Kept data
  tipSeen : ∀ c ∈ tips, c ∈ data.seen
  parentSeen : ∀ c ∈ data.popped, ∀ p ∈ dag.parents c, p ∈ data.seen
  rootReturned : ∀ c ∈ data.popped, dag.parents c = [] → c ∉ data.common → c ∈ returned
  returnedPopped : ∀ c ∈ returned, c ∈ data.popped
  nodup : returned.Nodup

def Rev.Settled (dag : CommitDag C) (tips returned : List C) : Rev C → Prop
  | .bug => False
  | .null data => GitCore.Negotiator.Settled dag data tips returned ∧ uncommon data.queue data.common = 0
  | .send c data => GitCore.Negotiator.Settled dag data tips (c :: returned) ∧ c ∉ data.common

variable {data : Data C} {tips returned : List C}

lemma Kept.popEntry {entry : Entry C} {rest : List (Entry C)} (h : Kept data) (hlist : data.revList = entry :: rest) :
    Kept (popEntry data entry rest) ∧ entry.commit ∈ data.seen ∧ entry.commit ∉ data.popped := by
  have hqueue : data.queue = entry.commit :: rest.map Entry.commit := by rw [Data.queue, hlist, List.map_cons]
  have hnodup := h.nodup
  rw [hqueue, List.nodup_cons] at hnodup
  obtain ⟨hout, hrest⟩ := hnodup
  obtain ⟨hseen, hpopped⟩ := (h.queued entry.commit).mp (hqueue ▸ List.mem_cons_self)
  refine ⟨⟨hrest, ?_, Finset.insert_subset hseen h.popped_seen, h.common_seen, h.advertised_seen, ?_⟩, hseen, hpopped⟩
  · intro c
    change c ∈ rest.map Entry.commit ↔ c ∈ data.seen ∧ c ∉ insert entry.commit data.popped
    have hc := h.queued c
    rw [hqueue, List.mem_cons] at hc
    rw [Finset.mem_insert, not_or]
    constructor
    · intro hin
      obtain ⟨hs, hp⟩ := hc.mp (.inr hin)
      exact ⟨hs, fun heq => hout (heq ▸ hin), hp⟩
    · rintro ⟨hs, hne, hp⟩
      exact (hc.mpr ⟨hs, hp⟩).resolve_left hne
  · change (if entry.commit ∈ data.common then data.nonCommonRevs else data.nonCommonRevs - 1) =
      (uncommon (rest.map Entry.commit) data.common : Int)
    rw [h.counted, hqueue]
    split_ifs with hcommon
    · rw [uncommon, List.filter_cons_of_neg (by simpa using hcommon), uncommon]
    · rw [uncommon, List.filter_cons_of_pos (by simpa using hcommon), List.length_cons, uncommon]
      omega

lemma Settled.step {entry : Entry C} {rest : List (Entry C)} {data' : Data C} {parentPushed : Bool}
    (h : Settled dag data tips returned) (hlist : data.revList = entry :: rest)
    (hpush : pushParents dag entry (dag.parents entry.commit) (popEntry data entry rest) false =
      some (data', parentPushed)) :
    entry.commit ∉ returned ∧ (entry.commit ∉ data.common → entry.commit ∉ data'.common) ∧
      Settled dag data' tips (entry.commit :: returned) ∧
      (entry.commit ∈ data'.common ∨ parentPushed = true → Settled dag data' tips returned) := by
  obtain ⟨hkept, hseen, hpopped⟩ := h.kept.popEntry hlist
  obtain ⟨result, hresult, hgrown, hparents, hnone⟩ := hkept.pushParents entry (dag.parents entry.commit) false
  obtain rfl : result = (data', parentPushed) := Option.some.inj (hresult.symm.trans hpush)
  have hout : entry.commit ∉ returned := fun hin => hpopped (h.returnedPopped _ hin)
  have hin : ∀ c, c ∈ data'.popped ↔ c = entry.commit ∨ c ∈ data.popped := fun c => by
    rw [hgrown.popped]
    exact Finset.mem_insert
  have hseen' : data.seen ⊆ data'.seen := hgrown.seen
  have hback : ∀ c, c ∉ data'.common → c ∉ data.common := fun c hc hin => hc (hgrown.common hin)
  have hall : ∀ c ∈ data'.popped, ∀ p ∈ dag.parents c, p ∈ data'.seen := fun c hc p hp => by
    obtain rfl | hc := (hin c).mp hc
    · exact hparents p hp
    · exact hseen' (h.parentSeen c hc p hp)
  refine ⟨hout, fun hcommon hcommon' => ?_, ?_, fun hreason => ?_⟩
  · obtain hold | ⟨p, hp, hreach⟩ := hgrown.new _ hcommon'
    · exact hcommon hold
    · exact not_properAncestor_self entry.commit (Reach.properAncestor_of_parent hp hreach)
  · refine ⟨hgrown.kept, fun c hc => hseen' (h.tipSeen c hc), hall, fun c hc hroot hcommon => ?_, fun c hc => ?_,
      List.nodup_cons.mpr ⟨hout, h.nodup⟩⟩
    · obtain rfl | hc := (hin c).mp hc
      · exact List.mem_cons_self
      · exact List.mem_cons_of_mem _ (h.rootReturned c hc hroot (hback c hcommon))
    · obtain rfl | hc := List.mem_cons.mp hc
      · exact (hin _).mpr (.inl rfl)
      · exact (hin _).mpr (.inr (h.returnedPopped c hc))
  · refine ⟨hgrown.kept, fun c hc => hseen' (h.tipSeen c hc), hall, fun c hc hroot hcommon => ?_,
      fun c hc => (hin c).mpr (.inr (h.returnedPopped c hc)), h.nodup⟩
    obtain rfl | hc := (hin c).mp hc
    · have hfalse := hnone hroot
      obtain hmarked | htrue := hreason
      · exact absurd hmarked hcommon
      · rw [htrue] at hfalse
        cases hfalse
    · exact h.rootReturned c hc hroot (hback c hcommon)

lemma Settled.getRev [Fintype C] (h : Settled dag data tips returned) : (getRev dag data).Settled dag tips returned := by
  fun_induction GitCore.Negotiator.getRev dag data with
  | case1 data hlist =>
    refine ⟨h, ?_⟩
    rw [Data.queue, hlist]
    rfl
  | case2 data entry rest hlist hzero =>
    refine ⟨h, ?_⟩
    have hcounted := h.kept.counted
    rw [hzero] at hcounted
    exact_mod_cast hcounted.symm
  | case3 data entry rest hlist hzero hparents =>
    obtain ⟨result, hresult, -⟩ :=
      @Kept.pushParents _ _ dag _ entry (dag.parents entry.commit) false (h.kept.popEntry hlist).1
    rw [hparents] at hresult
    cases hresult
  | case4 data entry rest hlist hzero data' parentPushed hparents hsend =>
    obtain ⟨-, hcommon, hsent, -⟩ := h.step hlist hparents
    refine ⟨hsent, ?_⟩
    obtain ⟨hnew, -⟩ | ⟨hnew, -⟩ := hsend
    · exact hcommon hnew
    · exact hnew
  | case5 data entry rest hlist hzero data' parentPushed hparents hsend ih =>
    obtain ⟨-, -, -, hkeep⟩ := h.step hlist hparents
    refine ih (hkeep ?_)
    obtain ⟨-, hkept⟩ := not_or.mp hsend
    rw [not_and_or, not_not, Bool.not_eq_false] at hkept
    exact hkept

lemma Settled.push {c : C} {advertised : Bool} (h : Settled dag data tips returned) (hc : c ∉ data.seen) :
    Settled dag (revListPush dag data c advertised).1 (c :: tips) returned := by
  obtain ⟨hgrown, hin⟩ := @Kept.revListPush _ _ dag _ c advertised h.kept hc
  refine ⟨hgrown.kept, fun d hd => ?_, fun d hd p hp => hgrown.seen (h.parentSeen d hd p hp), h.rootReturned,
    h.returnedPopped, h.nodup⟩
  obtain rfl | hd := List.mem_cons.mp hd
  · exact hin
  · exact hgrown.seen (h.tipSeen d hd)

lemma Settled.seen {c : C} (h : Settled dag data tips returned) (hc : c ∈ data.seen) :
    Settled dag data (c :: tips) returned := by
  refine ⟨h.kept, fun d hd => ?_, h.parentSeen, h.rootReturned, h.returnedPopped, h.nodup⟩
  obtain rfl | hd := List.mem_cons.mp hd
  · exact hc
  · exact h.tipSeen d hd

lemma Settled.ack {c : C} {known : Bool} {data' : Data C} (h : Settled dag data tips returned)
    (hack : ack dag data c = some (known, data')) : Settled dag data' tips returned := by
  rw [GitCore.Negotiator.ack] at hack
  split_ifs at hack with hseen
  cases hack
  have hgrown := (@Kept.markCommon _ _ dag _ c h.kept hseen).grown h.kept
  refine ⟨hgrown.kept, fun d hd => hgrown.seen (h.tipSeen d hd), fun d hd p hp => ?_, fun d hd hroot hcommon => ?_,
    fun d hd => ?_, h.nodup⟩
  · rw [hgrown.popped] at hd
    exact hgrown.seen (h.parentSeen d hd p hp)
  · rw [hgrown.popped] at hd
    exact h.rootReturned d hd hroot fun hold => hcommon (hgrown.common hold)
  · rw [hgrown.popped]
    exact h.returnedPopped d hd

def IsHistory (dag : CommitDag C) (path : List C) (root : C) : Prop :=
  path.IsChain (fun c p => p ∈ dag.parents c) ∧ path.getLast? = some root ∧ dag.parents root = []

lemma Settled.history {c root : C} {path : List C} (h : Settled dag data tips returned)
    (hzero : uncommon data.queue data.common = 0) (hc : c ∈ data.seen) (hpath : IsHistory dag (c :: path) root) :
    (∃ d ∈ c :: path, d ∈ data.common) ∨ root ∈ returned := by
  induction path generalizing c with
  | nil =>
    obtain ⟨-, hlast, hroot⟩ := hpath
    obtain rfl : c = root := Option.some.inj hlast
    by_cases hcommon : c ∈ data.common
    · exact .inl ⟨c, List.mem_cons_self, hcommon⟩
    · refine .inr (h.rootReturned c ?_ hroot hcommon)
      by_contra hpopped
      have hqueue := (h.kept.queued c).mpr ⟨hc, hpopped⟩
      have hnil := List.length_eq_zero_iff.mp hzero
      exact absurd (List.mem_filter.mpr ⟨hqueue, by simpa using hcommon⟩) (hnil ▸ List.not_mem_nil)
  | cons p path ih =>
    obtain ⟨hchain, hlast, hroot⟩ := hpath
    obtain ⟨hparent, hrest⟩ := List.isChain_cons_cons.mp hchain
    by_cases hcommon : c ∈ data.common
    · exact .inl ⟨c, List.mem_cons_self, hcommon⟩
    · have hpopped : c ∈ data.popped := by
        by_contra hpopped
        have hqueue := (h.kept.queued c).mpr ⟨hc, hpopped⟩
        have hnil := List.length_eq_zero_iff.mp hzero
        exact absurd (List.mem_filter.mpr ⟨hqueue, by simpa using hcommon⟩) (hnil ▸ List.not_mem_nil)
      rw [List.getLast?_cons_cons] at hlast
      obtain ⟨d, hd, hdc⟩ | hreturned := ih (h.parentSeen c hpopped p hparent) ⟨hrest, hlast, hroot⟩
      · exact .inl ⟨d, List.mem_cons_of_mem c hd, hdc⟩
      · exact .inr hreturned

variable (dag)

/-- Calls of `known_common` and `add_tip`, in any order, and the commits they were for. -/
inductive Setup : Data C → List C → Prop where
  | init (parsed : Finset C) : Setup (skippingNegotiatorInit parsed) []
  | knownCommon (c : C) {data : Data C} {tips : List C} (h : Setup data tips) : Setup (knownCommon dag data c) (c :: tips)
  | addTip (c : C) {data : Data C} {tips : List C} (h : Setup data tips) : Setup (addTip dag data c) (c :: tips)

/-- Then calls of `next` and `ack`, in any order, and the commits that were returned. -/
inductive Negotiation [Fintype C] (tips : List C) : Data C → List C → Prop where
  | setup {data : Data C} (h : Setup dag data tips) : Negotiation tips data []
  | send {data data' : Data C} {returned : List C} {c : C} (h : Negotiation tips data returned)
      (hnext : getRev dag data = .send c data') : Negotiation tips data' (c :: returned)
  | null {data data' : Data C} {returned : List C} (h : Negotiation tips data returned)
      (hnext : getRev dag data = .null data') : Negotiation tips data' returned
  | ack {data data' : Data C} {returned : List C} {c : C} {known : Bool} (h : Negotiation tips data returned)
      (hc : c ∈ returned ∨ c ∈ data.advertised) (hack : ack dag data c = some (known, data')) :
      Negotiation tips data' returned

variable {dag}

lemma Setup.settled (h : Setup dag data tips) : Settled dag data tips [] := by
  induction h with
  | init parsed =>
    exact
      { kept := ⟨List.nodup_nil, by simp [Data.queue, skippingNegotiatorInit], Finset.Subset.refl _,
          Finset.Subset.refl _, Finset.Subset.refl _, rfl⟩
        tipSeen := fun _ hc => absurd hc List.not_mem_nil
        parentSeen := fun _ hc => absurd hc (Finset.notMem_empty _)
        rootReturned := fun _ hc => absurd hc (Finset.notMem_empty _)
        returnedPopped := fun _ hc => absurd hc List.not_mem_nil
        nodup := List.nodup_nil }
  | knownCommon c h ih =>
    rw [GitCore.Negotiator.knownCommon]
    split_ifs with hseen
    · exact ih.seen hseen
    · exact ih.push hseen
  | addTip c h ih =>
    rw [GitCore.Negotiator.addTip]
    split_ifs with hseen
    · exact ih.seen hseen
    · exact ih.push hseen

lemma Negotiation.settled [Fintype C] (h : Negotiation dag tips data returned) : Settled dag data tips returned := by
  induction h with
  | setup h => exact h.settled
  | send h hnext ih =>
    have hrev := ih.getRev
    rw [hnext] at hrev
    exact hrev.1
  | null h hnext ih =>
    have hrev := ih.getRev
    rw [hnext] at hrev
    exact hrev.1
  | ack h hc hack ih => exact ih.ack hack

def oneCommit : CommitDag Unit where
  parents _ := []
  date _ := 1
  generation _ := 1
  acyclic := ⟨fun c => ⟨c, fun _ hp => absurd hp List.not_mem_nil⟩⟩
  generation_pos _ := Nat.one_pos
  generation_le _ := by decide
  generation_lt _ _ hp := absurd hp List.not_mem_nil

end GitCore.Negotiator
