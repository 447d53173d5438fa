import GitCore.Reach.Subset
import Mathlib.Data.List.TakeWhile

/-!
# The tips that are reachable from bases

`tips_reachable_from_bases` of `commit-reach.c`: a depth-first search that does not go below the
lowest generation of the tips it has not found yet.
-/

namespace GitCore.Reach

/-- The flags of the search, `mark` being the one of the caller. -/
inductive TipMark
  | result
  | seen
  | mark
  deriving DecidableEq

abbrev TipMarks (C : Type) := Finset (C × TipMark)

structure CommitAndIndex (C : Type) where
  commit : C
  generation : Nat

structure TipState (C : Type) where
  marks : TipMarks C
  stack : List C
  minGenerationIndex : Nat
  minGeneration : Nat

variable {C : Type} (dag : CommitDag C)

def commitsByGeneration (tips : List C) : List (CommitAndIndex C) :=
  (tips.map (fun tip => CommitAndIndex.mk tip (dag.generation tip))).insertionSort
    (fun a b => a.generation ≤ b.generation)

variable [DecidableEq C]

/-- `commits[k].commit->object.flags & mark` -/
def isMarked (marks : TipMarks C) (x : CommitAndIndex C) : Bool :=
  decide ((x.commit, .mark) ∈ marks)

/-- The loop that takes `k` behind the commits with the mark. -/
def nextUnmarked (commits : List (CommitAndIndex C)) (marks : TipMarks C) (k : Nat) : Nat :=
  k + ((commits.drop k).takeWhile (isMarked marks)).length

/-- When the lowest tip is found the bound becomes the one of the next that is not. When all are found
the search ends with the marks. -/
def advanceMinGeneration (commits : List (CommitAndIndex C)) (s : TipState C) : TipState C ⊕ TipMarks C :=
  if commits[s.minGenerationIndex]?.any (isMarked s.marks) then
    if h : nextUnmarked commits s.marks (s.minGenerationIndex + 1) < commits.length then
      .inl { s with
        minGenerationIndex := nextUnmarked commits s.marks (s.minGenerationIndex + 1)
        minGeneration := commits[nextUnmarked commits s.marks (s.minGenerationIndex + 1)].generation }
    else .inr s.marks
  else .inl s

def matchTip (commits : List (CommitAndIndex C)) (s : TipState C) (c : C) : TipState C ⊕ TipMarks C :=
  if (c, .result) ∈ s.marks then advanceMinGeneration commits { s with marks := insert (c, .mark) s.marks }
  else .inl s

/-- The first parent that is neither explored nor below the bound goes on the stack. -/
def exploreParent (s : TipState C) (c : C) (stack : List C) : TipState C :=
  match (dag.parents c).find? (fun p => decide ((p, .seen) ∉ s.marks ∧ s.minGeneration ≤ dag.generation p)) with
  | some p => { s with marks := insert (p, .seen) s.marks, stack := p :: c :: stack }
  | none => { s with stack := stack }

/-- One round of the loop of `tips_reachable_from_bases`. -/
def tipStep (commits : List (CommitAndIndex C)) (s : TipState C) : TipState C ⊕ TipMarks C :=
  match s.stack with
  | [] => .inr s.marks
  | c :: stack =>
    match matchTip commits s c with
    | .inl s' => .inl (exploreParent dag s' c stack)
    | .inr marks => .inr marks

def tipStart (bases tips : List C) (marks : TipMarks C) : TipState C where
  marks := marks ∪ (tips.map (fun tip => (tip, TipMark.result))).toFinset
  stack := bases.reverse
  minGenerationIndex := 0
  minGeneration := ((commitsByGeneration dag tips).head?.map CommitAndIndex.generation).getD 0

section Size

variable {dag} {commits : List (CommitAndIndex C)} {s s' : TipState C}

lemma advanceMinGeneration_frame
    (h : advanceMinGeneration commits s = .inl s') : s'.stack = s.stack ∧ s'.marks = s.marks := by
  unfold advanceMinGeneration at h
  split_ifs at h
  all_goals
    obtain rfl := Sum.inl.inj h
    exact ⟨rfl, rfl⟩

lemma matchTip_frame {c : C}
    (h : matchTip commits s c = .inl s') :
    s'.stack = s.stack ∧ s'.marks = if (c, .result) ∈ s.marks then insert (c, .mark) s.marks else s.marks := by
  unfold matchTip at h
  split_ifs at h ⊢
  · exact advanceMinGeneration_frame h
  · obtain rfl := Sum.inl.inj h
    exact ⟨rfl, rfl⟩

variable [Fintype C]

def tipSize (s : TipState C) : Nat :=
  2 * ({c | (c, .seen) ∉ s.marks} : Finset C).card + s.stack.length

lemma tipSize_step (h : tipStep dag commits s = .inl s') :
    tipSize s' < tipSize s := by
  unfold tipStep at h
  cases hstack : s.stack with
  | nil =>
    rw [hstack] at h
    cases h
  | cons c stack =>
    rw [hstack] at h
    cases hmatch : matchTip commits s c with
    | inr marks =>
      simp only [hmatch] at h
      cases h
    | inl s₁ =>
      simp only [hmatch] at h
      obtain rfl := Sum.inl.inj h
      obtain ⟨-, hmarks⟩ := matchTip_frame hmatch
      have hcard : ({d | (d, TipMark.seen) ∉ s₁.marks} : Finset C).card =
          ({d | (d, TipMark.seen) ∉ s.marks} : Finset C).card := by
        rw [hmarks]
        split_ifs <;> simp
      unfold exploreParent
      split
      case h_1 p hfind =>
        have hp := List.find?_some hfind
        simp only [decide_eq_true_eq] at hp
        have hlt : ({d | (d, TipMark.seen) ∉ insert (p, TipMark.seen) s₁.marks} : Finset C).card <
            ({d | (d, TipMark.seen) ∉ s₁.marks} : Finset C).card := by
          refine Finset.card_lt_card ((Finset.ssubset_iff_of_subset fun d hd => ?_).mpr ⟨p, by simpa using hp.1, by simp⟩)
          simp only [Finset.mem_filter, Finset.mem_univ, true_and, Finset.mem_insert, not_or] at hd ⊢
          exact hd.2
        simp only [tipSize, hstack, List.length_cons]
        omega
      case h_2 =>
        simp only [tipSize, hcard, hstack, List.length_cons]
        omega

end Size

def tipsReachableFromBases [Fintype C] (bases tips : List C) (marks : TipMarks C) : TipMarks C :=
  if bases = [] ∨ tips = [] then marks
  else
    (loop (tipStep dag (commitsByGeneration dag tips)) tipSize (fun _ _ => tipSize_step) (tipStart dag bases tips marks)).filter
      (fun x => ¬ (x.2 = .result ∧ x.1 ∈ tips) ∧ x.2 ≠ .seen)

end GitCore.Reach

/-!
# The tips that are reachable get the mark

The bound of the search is the lowest generation of the tips without the mark at every time, so a
parent that is left out does not lead to one of them.
-/

namespace GitCore.Reach

variable {C : Type} {dag : CommitDag C} {tips : List C}

lemma mem_commitsByGeneration {x : CommitAndIndex C} :
    x ∈ commitsByGeneration dag tips ↔ x.commit ∈ tips ∧ x.generation = dag.generation x.commit := by
  unfold commitsByGeneration
  rw [List.mem_insertionSort, List.mem_map]
  constructor
  · rintro ⟨tip, htip, rfl⟩
    exact ⟨htip, rfl⟩
  · rintro ⟨htip, hgen⟩
    exact ⟨x.commit, htip, by rw [← hgen]⟩

lemma sorted_commitsByGeneration :
    (commitsByGeneration dag tips).Pairwise (fun a b => a.generation ≤ b.generation) := by
  have : Std.Total (fun a b : CommitAndIndex C => a.generation ≤ b.generation) :=
    ⟨fun a b => Nat.le_total a.generation b.generation⟩
  have : IsTrans (CommitAndIndex C) (fun a b => a.generation ≤ b.generation) := ⟨fun _ _ _ h h' => Nat.le_trans h h'⟩
  exact List.pairwise_insertionSort _ _

variable [DecidableEq C]

structure Bound (commits : List (CommitAndIndex C)) (s : TipState C) : Prop where
  index : commits[s.minGenerationIndex]?.map CommitAndIndex.generation = some s.minGeneration
  before : ∀ x ∈ commits.take s.minGenerationIndex, (x.commit, .mark) ∈ s.marks

structure TipInv (dag : CommitDag C) (bases tips : List C) (s : TipState C) : Prop where
  bound : Bound (commitsByGeneration dag tips) s
  result : ∀ c, (c, .result) ∈ s.marks ↔ c ∈ tips
  sound : ∀ c, (c, .mark) ∈ s.marks → c ∈ tips ∧ ReachedFrom dag bases c
  onStack : ∀ c ∈ s.stack, ReachedFrom dag bases c
  done : ∀ c, c ∈ bases ∨ (c, .seen) ∈ s.marks → c ∈ s.stack ∨
    (c ∈ tips → (c, .mark) ∈ s.marks) ∧
      ∀ p ∈ dag.parents c, (p, .seen) ∈ s.marks ∨ dag.generation p < s.minGeneration

section Bound

variable {commits : List (CommitAndIndex C)} {s s' : TipState C}

lemma marked_before_nextUnmarked {marks : TipMarks C} {k : Nat}
    (hbefore : ∀ x ∈ commits.take k, (x.commit, .mark) ∈ marks) :
    ∀ x ∈ commits.take (nextUnmarked commits marks k), (x.commit, TipMark.mark) ∈ marks := by
  intro x hx
  unfold nextUnmarked at hx
  rw [List.take_add, List.mem_append] at hx
  obtain hx | hx := hx
  · exact hbefore x hx
  · have heq := List.prefix_iff_eq_take.mp (List.takeWhile_prefix (isMarked marks) (l := commits.drop k))
    rw [← heq] at hx
    simpa [isMarked] using List.mem_takeWhile_imp hx

lemma marked_take_succ {marks : TipMarks C} {k : Nat} (hbefore : ∀ x ∈ commits.take k, (x.commit, .mark) ∈ marks)
    (hk : commits[k]?.any (isMarked marks) = true) : ∀ x ∈ commits.take (k + 1), (x.commit, TipMark.mark) ∈ marks := by
  intro x hx
  rw [List.take_add_one, List.mem_append, Option.mem_toList] at hx
  obtain hx | hx := hx
  · exact hbefore x hx
  · rw [hx] at hk
    simpa [isMarked] using hk

omit [DecidableEq C] in
lemma generation_le_of_le (hsorted : commits.Pairwise (fun a b => a.generation ≤ b.generation)) {i j : Nat}
    {x y : CommitAndIndex C} (hx : commits[i]? = some x) (hy : commits[j]? = some y) (hij : i ≤ j) :
    x.generation ≤ y.generation := by
  obtain hlt | rfl := hij.lt_or_eq
  · obtain ⟨hi, rfl⟩ := List.getElem?_eq_some_iff.mp hx
    obtain ⟨hj, rfl⟩ := List.getElem?_eq_some_iff.mp hy
    exact List.pairwise_iff_getElem.mp hsorted i j hi hj hlt
  · rw [hx] at hy
    rw [Option.some.inj hy]

lemma Bound.raise (h : Bound commits s) (hsorted : commits.Pairwise (fun a b => a.generation ≤ b.generation))
    (hs : advanceMinGeneration commits s = .inl s') : Bound commits s' ∧ s.minGeneration ≤ s'.minGeneration := by
  unfold advanceMinGeneration at hs
  split_ifs at hs with hmark hk
  · obtain rfl := Sum.inl.inj hs
    obtain ⟨x, hx, hgen⟩ := Option.map_eq_some_iff.mp h.index
    have hy := List.getElem?_eq_getElem hk
    refine ⟨⟨by rw [hy]; rfl, marked_before_nextUnmarked (marked_take_succ h.before hmark)⟩, ?_⟩
    have hle : s.minGenerationIndex ≤ nextUnmarked commits s.marks (s.minGenerationIndex + 1) := by
      unfold nextUnmarked
      omega
    rw [← hgen]
    exact generation_le_of_le hsorted hx hy hle
  · obtain rfl := Sum.inl.inj hs
    exact ⟨h, le_rfl⟩

lemma Bound.all (h : Bound commits s) {marks : TipMarks C} (hs : advanceMinGeneration commits s = .inr marks) :
    marks = s.marks ∧ ∀ x ∈ commits, (x.commit, .mark) ∈ marks := by
  unfold advanceMinGeneration at hs
  split_ifs at hs with hmark hk
  obtain rfl := Sum.inr.inj hs
  refine ⟨rfl, fun x hx => marked_before_nextUnmarked (marked_take_succ h.before hmark) x ?_⟩
  rwa [List.take_of_length_le (not_lt.mp hk)]

omit [DecidableEq C] in
lemma Bound.low (h : Bound commits s) (hsorted : commits.Pairwise (fun a b => a.generation ≤ b.generation))
    {x : CommitAndIndex C} (hx : x ∈ commits) (hno : (x.commit, .mark) ∉ s.marks) : s.minGeneration ≤ x.generation := by
  obtain ⟨y, hy, hgen⟩ := Option.map_eq_some_iff.mp h.index
  obtain ⟨j, hj⟩ := List.mem_iff_getElem?.mp hx
  rw [← hgen]
  refine generation_le_of_le hsorted hy hj (not_lt.mp fun hlt => hno (h.before x ?_))
  obtain ⟨hlen, rfl⟩ := List.getElem?_eq_some_iff.mp hj
  exact List.mem_take_iff_getElem.mpr ⟨j, by omega, rfl⟩

end Bound

variable {bases : List C}

lemma TipInv.matchTip {c : C} {stack : List C} (h : TipInv dag bases tips s)
    (hstack : s.stack = c :: stack) (hs : matchTip (commitsByGeneration dag tips) s c = .inl s') :
    TipInv dag bases tips s' ∧ (c ∈ tips → (c, .mark) ∈ s'.marks) := by
  have hframe := matchTip_frame hs
  have hbound : Bound (commitsByGeneration dag tips) s' ∧ s.minGeneration ≤ s'.minGeneration := by
    unfold Reach.matchTip at hs
    split_ifs at hs
    · have hmarked : Bound (commitsByGeneration dag tips) { s with marks := insert (c, TipMark.mark) s.marks } :=
        ⟨h.bound.index, fun x hx => Finset.mem_insert_of_mem (h.bound.before x hx)⟩
      exact hmarked.raise sorted_commitsByGeneration hs
    · obtain rfl := Sum.inl.inj hs
      exact ⟨h.bound, le_rfl⟩
  have hmark : ∀ d, (d, TipMark.mark) ∈ s'.marks ↔ (d, TipMark.mark) ∈ s.marks ∨ (d = c ∧ c ∈ tips) := by
    intro d
    rw [hframe.2, ← h.result]
    split_ifs with hc <;> simp [hc, or_comm]
  have hother : ∀ d m, m ≠ TipMark.mark → ((d, m) ∈ s'.marks ↔ (d, m) ∈ s.marks) := by
    intro d m hm
    rw [hframe.2]
    split_ifs <;> simp [hm]
  refine ⟨⟨hbound.1, fun d => ?_, fun d hd => ?_, fun d hd => ?_, fun d hd => ?_⟩, fun hc => (hmark c).mpr (.inr ⟨rfl, hc⟩)⟩
  · rw [hother d _ (by decide)]
    exact h.result d
  · obtain hd | ⟨rfl, hc⟩ := (hmark d).mp hd
    · exact h.sound d hd
    · exact ⟨hc, h.onStack d (hstack ▸ List.mem_cons_self ..)⟩
  · exact h.onStack d (hframe.1 ▸ hd)
  · rw [hother d _ (by decide)] at hd
    rw [hframe.1]
    refine (h.done d hd).imp_right fun ⟨hmarked, hparents⟩ => ?_
    refine ⟨fun hin => (hmark d).mpr (.inl (hmarked hin)), fun p hp => ?_⟩
    rw [hother p _ (by decide)]
    exact (hparents p hp).imp_right fun hlow => hlow.trans_le hbound.2

lemma TipInv.exploreParent {s : TipState C} {c : C} {stack : List C} (h : TipInv dag bases tips s)
    (hstack : s.stack = c :: stack) (hc : c ∈ tips → (c, .mark) ∈ s.marks) :
    TipInv dag bases tips (exploreParent dag s c stack) := by
  have hreach := h.onStack c (hstack ▸ List.mem_cons_self ..)
  unfold Reach.exploreParent
  split
  case h_1 p hfind =>
    have hp := List.mem_of_find?_eq_some hfind
    refine ⟨⟨h.bound.index, fun x hx => Finset.mem_insert_of_mem (h.bound.before x hx)⟩, fun d => ?_, fun d hd => ?_,
      fun d hd => ?_, fun d hd => ?_⟩
    · simp [h.result]
    · exact h.sound d (by simpa using hd)
    · obtain rfl | hd := List.mem_cons.mp hd
      · exact hreach.parent hp
      · exact h.onStack d (hstack ▸ hd)
    · simp only [Finset.mem_insert, Prod.mk.injEq, reduceCtorEq, and_true, and_false, false_or] at hd ⊢
      by_cases hdp : d = p
      · exact .inl (hdp ▸ List.mem_cons_self ..)
      · obtain hin | ⟨hmarked, hparents⟩ := h.done d (hd.imp_right fun h => h.resolve_left hdp)
        · exact .inl (List.mem_cons_of_mem _ (hstack ▸ hin))
        · exact .inr ⟨hmarked, fun q hq => (hparents q hq).imp_left .inr⟩
  case h_2 hfind =>
    refine ⟨⟨h.bound.index, h.bound.before⟩, h.result, h.sound, fun d hd => ?_, fun d hd => ?_⟩
    · exact h.onStack d (hstack ▸ List.mem_cons_of_mem _ hd)
    · obtain hin | hdone := h.done d hd
      · rw [hstack] at hin
        obtain rfl | hin := List.mem_cons.mp hin
        · refine .inr ⟨hc, fun p hp => ?_⟩
          have hno := List.find?_eq_none.mp hfind p hp
          simp only [decide_eq_true_eq, not_and_or, not_not, not_le] at hno
          exact hno
        · exact .inl hin
      · exact .inr hdone

lemma tipInv_start (htips : tips ≠ []) : TipInv dag bases tips (tipStart dag bases tips ∅) := by
  have hmarks : ∀ c m, (c, m) ∈ (tipStart dag bases tips ∅).marks ↔ m = TipMark.result ∧ c ∈ tips := by
    intro c m
    simp [tipStart, eq_comm, and_comm]
  have hpos : 0 < (commitsByGeneration dag tips).length := by
    rw [commitsByGeneration, List.length_insertionSort, List.length_map]
    exact List.length_pos_of_ne_nil htips
  refine ⟨⟨?_, by simp [tipStart]⟩, fun c => ?_, fun c hc => ?_, fun c hc => ?_, fun c hc => ?_⟩
  · simp only [tipStart, List.head?_eq_getElem?]
    rw [List.getElem?_eq_getElem hpos]
    rfl
  · simp [hmarks]
  · simp [hmarks] at hc
  · exact .self (List.mem_reverse.mp hc)
  · obtain hc | hc := hc
    · exact .inl (List.mem_reverse.mpr hc)
    · simp [hmarks] at hc

lemma TipInv.step (h : TipInv dag bases tips s)
    (hs : tipStep dag (commitsByGeneration dag tips) s = .inl s') : TipInv dag bases tips s' := by
  unfold tipStep at hs
  cases hstack : s.stack with
  | nil =>
    rw [hstack] at hs
    cases hs
  | cons c stack =>
    rw [hstack] at hs
    cases hmatch : Reach.matchTip (commitsByGeneration dag tips) s c with
    | inr marks =>
      simp only [hmatch] at hs
      cases hs
    | inl s₁ =>
      simp only [hmatch] at hs
      obtain rfl := Sum.inl.inj hs
      obtain ⟨hinv, hc⟩ := h.matchTip hstack hmatch
      exact hinv.exploreParent ((matchTip_frame hmatch).1.trans hstack) hc

lemma TipInv.last {s : TipState C} {marks : TipMarks C} (h : TipInv dag bases tips s)
    (hs : tipStep dag (commitsByGeneration dag tips) s = .inr marks) (c : C) :
    (c, TipMark.mark) ∈ marks ↔ c ∈ tips ∧ ReachedFrom dag bases c := by
  have htips : ∀ tip ∈ tips, CommitAndIndex.mk tip (dag.generation tip) ∈ commitsByGeneration dag tips :=
    fun tip htip => mem_commitsByGeneration.mpr ⟨htip, rfl⟩
  unfold tipStep at hs
  cases hstack : s.stack with
  | nil =>
    rw [hstack] at hs
    obtain rfl := Sum.inr.inj hs
    refine ⟨h.sound c, fun ⟨htip, base, hbase, hreach⟩ => ?_⟩
    by_contra hno
    have hlow : s.minGeneration ≤ dag.generation c := h.bound.low sorted_commitsByGeneration (htips c htip) hno
    have hdone : ∀ d, d ∈ bases ∨ (d, TipMark.seen) ∈ s.marks → (d ∈ tips → (d, TipMark.mark) ∈ s.marks) ∧
        ∀ p ∈ dag.parents d, (p, TipMark.seen) ∈ s.marks ∨ dag.generation p < s.minGeneration :=
      fun d hd => (h.done d hd).resolve_left (by simp [hstack])
    have hclosed : ∀ d, d ∈ bases ∨ (d, TipMark.seen) ∈ s.marks → ∀ p ∈ dag.parents d,
        s.minGeneration ≤ dag.generation p → p ∈ bases ∨ (p, TipMark.seen) ∈ s.marks :=
      fun d hd p hp hgen => .inr (((hdone d hd).2 p hp).resolve_right (not_lt.mpr hgen))
    exact hno ((hdone c (mem_of_reaches hclosed (.inl hbase) hreach hlow)).1 htip)
  | cons d stack =>
    rw [hstack] at hs
    cases hmatch : Reach.matchTip (commitsByGeneration dag tips) s d with
    | inl s₁ =>
      simp only [hmatch] at hs
      cases hs
    | inr marks₁ =>
      simp only [hmatch] at hs
      obtain rfl := Sum.inr.inj hs
      unfold Reach.matchTip at hmatch
      split_ifs at hmatch with hresult
      have hmarked : Bound (commitsByGeneration dag tips) { s with marks := insert (d, TipMark.mark) s.marks } :=
        ⟨h.bound.index, fun x hx => Finset.mem_insert_of_mem (h.bound.before x hx)⟩
      obtain ⟨rfl, hall⟩ := hmarked.all hmatch
      refine ⟨fun hc => ?_, fun hc => hall _ (htips c hc.1)⟩
      obtain hc | hc := Finset.mem_insert.mp hc
      · obtain rfl := (Prod.mk.inj hc).1
        exact ⟨(h.result c).mp hresult, h.onStack c (hstack ▸ List.mem_cons_self ..)⟩
      · exact h.sound c hc

lemma TipInv.last_result {s : TipState C} {marks : TipMarks C} (h : TipInv dag bases tips s)
    (hs : tipStep dag (commitsByGeneration dag tips) s = .inr marks) {c : C} (hc : (c, TipMark.result) ∈ marks) :
    c ∈ tips := by
  unfold tipStep at hs
  split at hs
  · obtain rfl := Sum.inr.inj hs
    exact (h.result c).mp hc
  · split at hs
    · cases hs
    · rename_i hmatch
      obtain rfl := Sum.inr.inj hs
      unfold Reach.matchTip advanceMinGeneration at hmatch
      split_ifs at hmatch
      obtain rfl := Sum.inr.inj hmatch
      exact (h.result c).mp (by simpa using hc)

variable [Fintype C]

lemma mem_tipsReachableFromBases (c : C) (m : TipMark) :
    (c, m) ∈ tipsReachableFromBases dag bases tips ∅ ↔ m = .mark ∧ c ∈ tips ∧ ReachedFrom dag bases c := by
  unfold tipsReachableFromBases
  split_ifs with hempty
  · refine iff_of_false (by simp) ?_
    rintro ⟨-, htip, base, hbase, -⟩
    obtain rfl | rfl := hempty
    · cases hbase
    · cases htip
  · rw [not_or] at hempty
    have hloop := loop_inv (tipStep dag (commitsByGeneration dag tips)) tipSize (fun _ _ => tipSize_step)
      (TipInv dag bases tips)
      (fun marks => (∀ c, (c, TipMark.mark) ∈ marks ↔ c ∈ tips ∧ ReachedFrom dag bases c) ∧
        ∀ c, (c, TipMark.result) ∈ marks → c ∈ tips)
      (fun s s' h hs => h.step hs) (fun s marks h hs => ⟨h.last hs, fun c => h.last_result hs⟩) (tipInv_start hempty.2)
    obtain ⟨hmark, hresult⟩ := hloop
    rw [Finset.mem_filter]
    cases m with
    | mark => simpa using hmark c
    | seen => simp
    | result => simpa using hresult c

/-- Both searches find the targets that are reached, though they leave out what is below the lowest
target they have not found. -/
theorem reachable_targets (dag : CommitDag C) (bases tips fromCommits toCommits : List C) (reachableFlag : Mark)
    (marks : Marks C) (hmarks : ∀ c, (c, Mark.parent1) ∉ marks ∧ (c, Mark.parent2) ∉ marks) :
    (∀ c m, (c, m) ∈ tipsReachableFromBases dag bases tips ∅ ↔
      m = TipMark.mark ∧ c ∈ tips ∧ ∃ base ∈ bases, Reaches dag base c) ∧
    (getReachableSubset dag reachableFlag fromCommits toCommits marks).2.Nodup ∧
    (∀ c, c ∈ (getReachableSubset dag reachableFlag fromCommits toCommits marks).2 ↔
      c ∈ toCommits ∧ ∃ start ∈ fromCommits, Reaches dag start c) :=
  ⟨mem_tipsReachableFromBases, getReachableSubset_spec reachableFlag hmarks⟩

def partlyNumbered : CommitDag (Fin 4) where
  parents := ![[], [0], [0, 1], [1]]
  date := ![10, 15, 20, 25]
  generation := ![1, 2, generationNumberInfinity, generationNumberInfinity]
  acyclic := Subrelation.wf (fun {p c} hp => by revert p c; decide) (wellFounded_lt (α := Fin 4))
  generation_pos := by
    intro c
    fin_cases c <;> simp [generationNumberInfinity]
  generation_le := by
    intro c
    fin_cases c <;> simp [generationNumberInfinity]
  generation_lt := by
    intro c p hp
    fin_cases c <;> fin_cases p <;> simp_all [generationNumberInfinity]

theorem reachable_targets_partlyNumbered :
    (∀ c m, (c, m) ∈ tipsReachableFromBases partlyNumbered [3, 1] [0, 2, 0, 3] ∅ ↔
      m = TipMark.mark ∧ c ∈ [0, 2, 0, 3] ∧ ∃ base ∈ [3, 1], Reaches partlyNumbered base c) ∧
    (getReachableSubset partlyNumbered .result [2] [0, 2, 0, 3] ∅).2.Nodup ∧
    (∀ c, c ∈ (getReachableSubset partlyNumbered .result [2] [0, 2, 0, 3] ∅).2 ↔
      c ∈ [0, 2, 0, 3] ∧ ∃ start ∈ [2], Reaches partlyNumbered start c) :=
  reachable_targets partlyNumbered [3, 1] [0, 2, 0, 3] [2] [0, 2, 0, 3] .result ∅ (by simp)

end GitCore.Reach
