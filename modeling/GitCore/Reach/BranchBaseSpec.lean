import GitCore.Reach.BranchBase
import GitCore.Reach.PaintSpec
import Mathlib.Data.Set.Card

/-!
# The base with the nearest branch point

The first-parent histories of two commits agree from the first commit that they share. A commit is
taken from the queue after all commits of the histories that lead to it, so that its label is final.
-/

namespace GitCore.Reach

section History

variable {C : Type} (dag : CommitDag C)

def FirstParent (c p : C) : Prop :=
  (dag.parents c).head? = some p

def InHistory (c d : C) : Prop :=
  Relation.ReflTransGen (FirstParent dag) c d

variable {dag}

lemma FirstParent.mem {c p : C} (h : FirstParent dag c p) : p ∈ dag.parents c :=
  List.mem_of_mem_head? h

lemma FirstParent.unique {c p q : C} (h : FirstParent dag c p) (h' : FirstParent dag c q) : p = q :=
  Option.some.inj (h.symm.trans h')

lemma InHistory.reaches {c d : C} (h : InHistory dag c d) : Reaches dag c d :=
  Relation.ReflTransGen.mono (fun _ _ hp => hp.mem) _ _ h

lemma InHistory.total {c d e : C} (hd : InHistory dag c d) (he : InHistory dag c e) :
    InHistory dag d e ∨ InHistory dag e d :=
  Relation.ReflTransGen.total_of_right_unique (fun _ _ _ h h' => h.unique h') hd he

lemma InHistory.antisymm {c d : C} (h : InHistory dag c d) (h' : InHistory dag d c) : c = d := by
  obtain rfl | hlt := reaches_iff_eq_or_properAncestor.mp h.reaches
  · rfl
  · exact absurd (hlt.of_reaches_right h'.reaches) (not_properAncestor_self c)

lemma InHistory.of_ne {c p d : C} (h : InHistory dag c d) (hp : FirstParent dag c p) (hne : c ≠ d) :
    InHistory dag p d := by
  cases h.cases_head with
  | inl heq => exact absurd heq hne
  | inr hstep =>
    obtain ⟨q, hq, hrest⟩ := hstep
    exact hp.unique hq ▸ hrest

lemma InHistory.child_unique {c d e p : C} (hd : InHistory dag c d) (he : InHistory dag c e)
    (hdp : FirstParent dag d p) (hep : FirstParent dag e p) : d = e := by
  have hback : ∀ {x y : C}, InHistory dag x y → FirstParent dag x p → FirstParent dag y p → x = y := by
    intro x y hxy hx hy
    by_contra hne
    have hpy := (hxy.of_ne hx hne).reaches
    exact not_properAncestor_self p ((properAncestor_of_parent hy.mem .refl).of_reaches_left hpy)
  obtain h | h := hd.total he
  · exact hback h hdp hep
  · exact (hback h hep hdp).symm

lemma FirstParent.not_inHistory {c p : C} (h : FirstParent dag c p) : ¬ InHistory dag p c := fun hback =>
  not_properAncestor_self c ((properAncestor_of_parent h.mem hback.reaches))

def ownCommits (dag : CommitDag C) (tip base : C) : Set C :=
  {c | InHistory dag tip c ∧ ¬ InHistory dag base c}

def Meets (dag : CommitDag C) (tip base : C) : Prop :=
  ∃ c, InHistory dag tip c ∧ InHistory dag base c

end History

variable {C : Type} {dag : CommitDag C} {tip : C} {bases : List C}

/-- `c` is in the history of `bases[i]`. -/
def InBase (dag : CommitDag C) (bases : List C) (i : Nat) (c : C) : Prop :=
  ∃ base, bases[i]? = some base ∧ InHistory dag base c

def Chained (dag : CommitDag C) (tip : C) (bases : List C) (c : C) : Prop :=
  InHistory dag tip c ∨ ∃ i, InBase dag bases i c

lemma Chained.of_inHistory {c d : C} (h : Chained dag tip bases c) (hd : InHistory dag c d) : Chained dag tip bases d := by
  obtain htip | ⟨i, base, hbase, hin⟩ := h
  · exact .inl (htip.trans hd)
  · exact .inr ⟨i, base, hbase, hin.trans hd⟩

def Handed (s : BranchState C) (c : C) : Prop :=
  s.best c ≠ 0 ∧ c ∉ s.queue

inductive Arrives (dag : CommitDag C) (tip : C) (bases : List C) (s : BranchState C) (c : C) : Int → Prop
  | tip : c = tip → Arrives dag tip bases s c (-1)
  | base (i : Nat) : bases[i]? = some c → Arrives dag tip bases s c (i + 1)
  | child (d : C) : Handed s d → FirstParent dag d c → Arrives dag tip bases s c (s.best d)

structure Final (dag : CommitDag C) (tip : C) (bases : List C) (s : BranchState C) (c : C) : Prop where
  ofTip : InHistory dag tip c → s.best c = -1
  ofBase : ∀ i, InBase dag bases i c → 0 < s.best c ∧ s.best c ≤ i + 1

structure BranchInv (dag : CommitDag C) (tip : C) (bases : List C) (s : BranchState C) : Prop where
  sorted : s.queue.Pairwise (fun a b => compareCommitsByGenThenCommitDate dag a b = true)
  nodup : s.queue.Nodup
  startTip : s.best tip ≠ 0
  startBase : ∀ base ∈ bases, s.best base ≠ 0
  next : ∀ c p, Handed s c → FirstParent dag c p → s.best p ≠ 0
  negative : ∀ c, s.best c < 0 → s.best c = -1 ∧ InHistory dag tip c ∧
    (c = tip ∨ ∃ d, Handed s d ∧ InHistory dag tip d ∧ FirstParent dag d c)
  positive : ∀ c, 0 < s.best c → ∃ i : Nat, s.best c = i + 1 ∧ InBase dag bases i c
  child : ∀ c d, Handed s c → Chained dag tip bases d → FirstParent dag d c → Handed s d
  final : ∀ c, Handed s c → Final dag tip bases s c

structure BeforeBranch (dag : CommitDag C) (tip : C) (bases : List C) (s : BranchState C) : Prop where
  branchPoint : s.branchPoint = none
  bestIndex : s.bestIndex = -1
  arrivesTip : ∀ c, Arrives dag tip bases s c (-1) → s.best c = -1
  arrivesBase : ∀ c v, Arrives dag tip bases s c v → 0 < v → 0 < s.best c ∧ s.best c ≤ v

structure AtBranch (dag : CommitDag C) (tip : C) (bases : List C) (s : BranchState C) (point : C) : Prop where
  branchPoint : s.branchPoint = some point
  inTip : InHistory dag tip point
  queued : point ∈ s.queue
  best : s.best point = -1
  bestIndex : ∃ i : Nat, s.bestIndex = i + 1 ∧ InBase dag bases i point
  tipChild : ∀ d, InHistory dag tip d → FirstParent dag d point → Handed s d
  arrivesPoint : ∀ v, Arrives dag tip bases s point v → 0 < v → s.bestIndex ≤ v
  arrivesBase : ∀ c, c ≠ point → ∀ v, Arrives dag tip bases s c v → 0 < v → 0 < s.best c ∧ s.best c ≤ v

section Inv

variable {s s' : BranchState C} {c : C} {queue : List C}

lemma BranchInv.chained (h : BranchInv dag tip bases s) (hc : s.best c ≠ 0) : Chained dag tip bases c := by
  obtain hlt | hgt := lt_or_gt_of_ne hc
  · exact .inl (h.negative c hlt).2.1
  · obtain ⟨i, -, hin⟩ := h.positive c hgt
    exact .inr ⟨i, hin⟩

lemma BranchInv.exists_queued (h : BranchInv dag tip bases s) {d : C} (hd : Chained dag tip bases d)
    (hno : ¬ Handed s d) : ∃ e ∈ s.queue, InHistory dag e d := by
  have hrun : ∀ start, InHistory dag start d → s.best start ≠ 0 → ∃ e ∈ s.queue, InHistory dag e d := by
    intro start hin
    induction hin using Relation.ReflTransGen.head_induction_on with
    | refl =>
      intro hbest
      by_contra hno'
      exact hno ⟨hbest, fun hin => hno' ⟨d, hin, .refl⟩⟩
    | @head x y hxy hrest ih =>
      intro hbest
      by_cases hx : x ∈ s.queue
      · exact ⟨x, hx, .head hxy hrest⟩
      · exact ih (h.next x y ⟨hbest, hx⟩ hxy)
  obtain htip | ⟨i, base, hbase, hin⟩ := hd
  · exact hrun tip htip h.startTip
  · exact hrun base hin (h.startBase base (List.mem_of_getElem? hbase))

lemma BranchInv.handed_child (h : BranchInv dag tip bases s)
    (hfinite : ∀ c, dag.generation c < generationNumberInfinity) (hqueue : s.queue = c :: queue) {d : C}
    (hd : Chained dag tip bases d) (hp : FirstParent dag d c) : Handed s d := by
  by_contra hno
  obtain ⟨e, he, hin⟩ := h.exists_queued hd hno
  have hlt : dag.generation c < dag.generation e :=
    (dag.generation_lt d c hp.mem (hfinite d)).trans_le (generation_le_of_reaches hin.reaches)
  have hsorted := h.sorted
  rw [hqueue] at he hsorted
  obtain rfl | he := List.mem_cons.mp he
  · exact hlt.false
  · have hle := compareByGen_iff.mp ((List.pairwise_cons.mp hsorted).1 e he)
    omega

lemma BranchInv.handed_above (h : BranchInv dag tip bases s) {d e : C} (hd : Handed s d)
    (he : Chained dag tip bases e) (hin : InHistory dag e d) : Handed s e := by
  induction hin using Relation.ReflTransGen.head_induction_on with
  | refl => exact hd
  | head hp hrest ih => exact h.child _ _ (ih (he.of_inHistory (.single hp))) he hp

lemma BranchInv.exists_arrives (h : BranchInv dag tip bases s)
    (hfinite : ∀ c, dag.generation c < generationNumberInfinity) (hqueue : s.queue = c :: queue) {i : Nat}
    (hi : InBase dag bases i c) : ∃ v, Arrives dag tip bases s c v ∧ 0 < v ∧ v ≤ i + 1 := by
  obtain ⟨base, hbase, hin⟩ := hi
  cases hin with
  | refl => exact ⟨i + 1, .base i hbase, by omega, le_rfl⟩
  | @tail d _ hd hp =>
    have hhanded := h.handed_child hfinite hqueue (.inr ⟨i, base, hbase, hd⟩) hp
    exact ⟨s.best d, .child d hhanded hp, (h.final d hhanded).ofBase i ⟨base, hbase, hd⟩⟩

lemma BranchInv.ofBase (h : BranchInv dag tip bases s) (hfinite : ∀ c, dag.generation c < generationNumberInfinity)
    (hqueue : s.queue = c :: queue)
    (harrives : ∀ v, Arrives dag tip bases s c v → 0 < v → 0 < s.best c ∧ s.best c ≤ v) {i : Nat}
    (hi : InBase dag bases i c) : 0 < s.best c ∧ s.best c ≤ i + 1 := by
  obtain ⟨v, hv, hpos, hle⟩ := h.exists_arrives hfinite hqueue hi
  exact ⟨(harrives v hv hpos).1, (harrives v hv hpos).2.trans hle⟩

lemma BeforeBranch.final (hb : BeforeBranch dag tip bases s) (h : BranchInv dag tip bases s)
    (hfinite : ∀ c, dag.generation c < generationNumberInfinity) (hqueue : s.queue = c :: queue) :
    Final dag tip bases s c := by
  refine ⟨fun htip => ?_, fun i hi => h.ofBase hfinite hqueue (hb.arrivesBase c) hi⟩
  cases htip with
  | refl => exact hb.arrivesTip _ (.tip rfl)
  | @tail d _ hd hp =>
    have hhanded := h.handed_child hfinite hqueue (.inl hd) hp
    have harrives := @Arrives.child _ _ tip bases _ _ d hhanded hp
    rw [(h.final d hhanded).ofTip hd] at harrives
    exact hb.arrivesTip c harrives

lemma AtBranch.handed_of_above {point : C} (hb : AtBranch dag tip bases s point) (h : BranchInv dag tip bases s)
    (htip : InHistory dag tip c) (hin : InHistory dag c point) (hne : c ≠ point) : Handed s c := by
  cases hin with
  | refl => exact absurd rfl hne
  | @tail d _ hd hp => exact h.handed_above (hb.tipChild d (htip.trans hd) hp) (.inl htip) hd

lemma AtBranch.not_inTip {point : C} (hb : AtBranch dag tip bases s point) (h : BranchInv dag tip bases s)
    (hfinite : ∀ c, dag.generation c < generationNumberInfinity) (hqueue : s.queue = c :: queue) (hne : c ≠ point) :
    ¬ InHistory dag tip c := by
  intro htip
  have hqueued := hb.queued
  have hsorted := h.sorted
  rw [hqueue] at hqueued hsorted
  have hpoint := (List.mem_cons.mp hqueued).resolve_left hne.symm
  obtain hin | hin := htip.total hb.inTip
  · exact (hb.handed_of_above h htip hin hne).2 (hqueue ▸ List.mem_cons_self ..)
  · have hanc : ProperAncestor dag c point :=
      (reaches_iff_eq_or_properAncestor.mp hin.reaches).resolve_left hne
    have hlt := generation_lt_of_properAncestor hanc (hfinite point)
    have hle := compareByGen_iff.mp ((List.pairwise_cons.mp hsorted).1 point hpoint)
    omega

lemma AtBranch.final {point : C} (hb : AtBranch dag tip bases s point) (h : BranchInv dag tip bases s)
    (hfinite : ∀ c, dag.generation c < generationNumberInfinity) (hqueue : s.queue = c :: queue) (hne : c ≠ point) :
    Final dag tip bases s c :=
  ⟨fun htip => absurd htip (hb.not_inTip h hfinite hqueue hne),
    fun _ hi => h.ofBase hfinite hqueue (hb.arrivesBase c hne) hi⟩

/-- What taking the commit `c` changes, beside the label that its first parent gets. -/
structure Passed (dag : CommitDag C) (s : BranchState C) (c : C) (s' : BranchState C) : Prop where
  best : ∀ d, ¬ FirstParent dag c d → s'.best d = s.best d
  parent : ∀ p, FirstParent dag c p → s'.best p ≠ 0
  handed : ∀ d, Handed s' d ↔ Handed s d ∨ d = c
  sorted : s'.queue.Pairwise (fun a b => compareCommitsByGenThenCommitDate dag a b = true)
  nodup : s'.queue.Nodup

lemma BranchInv.not_handed (h : BranchInv dag tip bases s) (hc : c ∈ s.queue) {p : C} (hp : FirstParent dag c p) :
    ¬ Handed s p := fun hhanded =>
  (h.child p c hhanded (h.chained (s.labelled c hc)) hp).2 hc

lemma Passed.best_of_handed (hpass : Passed dag s c s') (h : BranchInv dag tip bases s) (hc : c ∈ s.queue) {d : C}
    (hd : Handed s' d) : s'.best d = s.best d := by
  refine hpass.best d fun hp => ?_
  obtain hd | rfl := (hpass.handed d).mp hd
  · exact h.not_handed hc hp hd
  · exact hp.not_inHistory .refl

lemma Passed.arrives (hpass : Passed dag s c s') (h : BranchInv dag tip bases s) (hc : c ∈ s.queue) {d : C} {v : Int}
    (hv : Arrives dag tip bases s' d v) : Arrives dag tip bases s d v ∨ (FirstParent dag c d ∧ v = s.best c) := by
  cases hv with
  | tip htip => exact .inl (.tip htip)
  | base i hi => exact .inl (.base i hi)
  | child e he hp =>
    rw [hpass.best_of_handed h hc he]
    obtain he | rfl := (hpass.handed e).mp he
    · exact .inl (.child e he hp)
    · exact .inr ⟨hp, rfl⟩

structure Sound (dag : CommitDag C) (tip : C) (bases : List C) (s : BranchState C) (p : C) : Prop where
  negative : s.best p < 0 → s.best p = -1 ∧ InHistory dag tip p ∧
    (p = tip ∨ ∃ d, Handed s d ∧ InHistory dag tip d ∧ FirstParent dag d p)
  positive : 0 < s.best p → ∃ i : Nat, s.best p = i + 1 ∧ InBase dag bases i p

lemma BranchInv.passed (h : BranchInv dag tip bases s) (hc : c ∈ s.queue) (hfinal : Final dag tip bases s c)
    (hchild : ∀ d, Chained dag tip bases d → FirstParent dag d c → Handed s d) (hpass : Passed dag s c s')
    (hsound : ∀ p, FirstParent dag c p → Sound dag tip bases s' p) : BranchInv dag tip bases s' := by
  have hlabel : ∀ d, s.best d ≠ 0 → s'.best d ≠ 0 := by
    intro d hd
    by_cases hp : FirstParent dag c d
    · exact hpass.parent d hp
    · rw [hpass.best d hp]
      exact hd
  have hold : ∀ d, Handed s d → Handed s' d := fun d hd => (hpass.handed d).mpr (.inl hd)
  constructor
  case sorted => exact hpass.sorted
  case nodup => exact hpass.nodup
  case startTip => exact hlabel tip h.startTip
  case startBase => exact fun base hbase => hlabel base (h.startBase base hbase)
  case next =>
    intro d p hd hp
    obtain hd | rfl := (hpass.handed d).mp hd
    · exact hlabel p (h.next d p hd hp)
    · exact hpass.parent p hp
  case negative =>
    intro d hd
    by_cases hp : FirstParent dag c d
    · exact (hsound d hp).negative hd
    · rw [hpass.best d hp] at hd ⊢
      obtain ⟨hbest, hin, hfrom⟩ := h.negative d hd
      exact ⟨hbest, hin, hfrom.imp_right fun ⟨e, he, hrest⟩ => ⟨e, hold e he, hrest⟩⟩
  case positive =>
    intro d hd
    by_cases hp : FirstParent dag c d
    · exact (hsound d hp).positive hd
    · rw [hpass.best d hp] at hd ⊢
      exact h.positive d hd
  case child =>
    intro d e hd he hp
    obtain hd | rfl := (hpass.handed d).mp hd
    · exact hold e (h.child d e hd he hp)
    · exact hold e (hchild e he hp)
  case final =>
    intro d hd
    have heq := hpass.best_of_handed h hc hd
    have hwas : Final dag tip bases s d := by
      obtain hd | rfl := (hpass.handed d).mp hd
      · exact h.final d hd
      · exact hfinal
    exact ⟨fun htip => heq ▸ hwas.ofTip htip, fun i hi => heq ▸ hwas.ofBase i hi⟩

lemma handed_popBest (h : BranchInv dag tip bases s) (hqueue : s.queue = c :: queue) (d : C) :
    Handed (popBest s c queue hqueue) d ↔ Handed s d ∨ d = c := by
  have hnodup := h.nodup
  rw [hqueue, List.nodup_cons] at hnodup
  simp only [Handed, popBest, hqueue, List.mem_cons]
  by_cases hd : d = c
  · subst hd
    simp [hnodup.1, s.labelled d (hqueue ▸ List.mem_cons_self ..)]
  · simp [hd]

lemma passed_popBest (h : BranchInv dag tip bases s) (hqueue : s.queue = c :: queue) (hparents : dag.parents c = []) :
    Passed dag s c (popBest s c queue hqueue) := by
  have hnone : ∀ p, ¬ FirstParent dag c p := by
    intro p hp
    rw [FirstParent, hparents] at hp
    cases hp
  have hsorted := h.sorted
  have hnodup := h.nodup
  rw [hqueue] at hsorted hnodup
  exact ⟨fun _ _ => rfl, fun p hp => absurd hp (hnone p), handed_popBest h hqueue, (List.pairwise_cons.mp hsorted).2,
    (List.nodup_cons.mp hnodup).2⟩

variable [DecidableEq C]

lemma passed_setBest (h : BranchInv dag tip bases s) (hqueue : s.queue = c :: queue) {p : C} (hp : FirstParent dag c p)
    (hbest : s.best p ≠ 0) {s' : BranchState C} {v : Int} (hv : v ≠ 0) (hs' : s'.best = Function.update s.best p v)
    (hq : s'.queue = queue) : Passed dag s c s' := by
  have hsorted := h.sorted
  have hnodup := h.nodup
  rw [hqueue] at hsorted hnodup
  refine ⟨fun d hd => ?_, fun q hq => ?_, fun d => ?_, hq ▸ (List.pairwise_cons.mp hsorted).2,
    hq ▸ (List.nodup_cons.mp hnodup).2⟩
  · rw [hs', Function.update_of_ne]
    rintro rfl
    exact hd hp
  · rw [hs', hp.unique hq, Function.update_self]
    exact hv
  · rw [← handed_popBest h hqueue]
    simp only [Handed, hs', hq, popBest, Function.update_apply]
    split_ifs with hd
    · subst hd
      simp [hv, hbest]
    · rfl

lemma passed_putBest (h : BranchInv dag tip bases s) (hqueue : s.queue = c :: queue) {p : C} (hp : FirstParent dag c p)
    (hbest : s.best p = 0) {v : Int} (hv : v ≠ 0) :
    Passed dag s c (putBest dag (popBest s c queue hqueue) p v hv) := by
  have hsorted := h.sorted
  have hnodup := h.nodup
  rw [hqueue] at hsorted hnodup
  have hpq : p ∉ queue := fun hin => s.labelled p (hqueue ▸ List.mem_cons_of_mem _ hin) hbest
  refine ⟨fun d hd => ?_, fun q hq => ?_, fun d => ?_, ?_, ?_⟩
  · have hne : d ≠ p := by
      rintro rfl
      exact hd hp
    exact Function.update_of_ne hne ..
  · rw [← hp.unique hq]
    exact (Function.update_self p v s.best).trans_ne hv
  · rw [← handed_popBest h hqueue]
    simp only [Handed, putBest, best_setBest, popBest, mem_prioQueuePut]
    split_ifs with hd
    · subst hd
      simp [hbest]
    · simp [hd]
  · exact sorted_prioQueuePut (queueOrder_gen dag) (List.pairwise_cons.mp hsorted).2
  · exact (perm_prioQueuePut _ p queue).nodup_iff.mpr (List.nodup_cons.mpr ⟨hpq, (List.nodup_cons.mp hnodup).2⟩)

/-- The first parent `p` gets the label of `c` or the smaller one of two labels of bases. -/
structure Merged (dag : CommitDag C) (s : BranchState C) (c p : C) (s' : BranchState C) : Prop where
  passed : Passed dag s c s'
  label : (s.best p = 0 ∧ s'.best p = s.best c) ∨
    (0 < s.best p ∧ 0 < s.best c ∧ s'.best p = min (s.best c) (s.best p))
  branchPoint : s'.branchPoint = s.branchPoint
  bestIndex : s'.bestIndex = s.bestIndex

structure Agreed (dag : CommitDag C) (s : BranchState C) (c p : C) (s' : BranchState C) : Prop where
  passed : Passed dag s c s'
  labelled : s.best p ≠ 0
  signs : s.best p < 0 ∨ s.best c < 0
  label : s'.best p = -1
  queue : s.queue = c :: s'.queue
  branchPoint : s'.branchPoint = some p
  bestIndex : s'.bestIndex =
    if s.bestIndex < 0 ∨ (if s.best c < 0 then s.best p else s.best c) < s.bestIndex then
      if s.best c < 0 then s.best p else s.best c
    else s.bestIndex

lemma passBest_cases (h : BranchInv dag tip bases s) (hqueue : s.queue = c :: queue) {p : C} (hp : FirstParent dag c p)
    (hc : (popBest s c queue hqueue).best c ≠ 0) :
    Merged dag s c p (passBest dag (popBest s c queue hqueue) c p hc) ∨
      Agreed dag s c p (passBest dag (popBest s c queue hqueue) c p hc) := by
  have hlabel : s.best c ≠ 0 := hc
  have hupdate : ∀ v, Function.update s.best p v p = v := fun v => Function.update_self ..
  unfold passBest
  split_ifs with hzero hpos hlt hneg
  · exact .inl ⟨passed_putBest h hqueue hp hzero hc, .inl ⟨hzero, hupdate _⟩, rfl, rfl⟩
  · refine .inl ⟨passed_setBest h hqueue hp hzero hc rfl rfl, .inr ⟨hpos.1, hpos.2, ?_⟩, rfl, rfl⟩
    exact (hupdate _).trans (min_eq_left (le_of_lt hlt)).symm
  · refine .inl ⟨passed_setBest h hqueue hp hzero hzero (Function.update_eq_self ..).symm rfl, .inr ⟨hpos.1, hpos.2, ?_⟩, rfl, rfl⟩
    exact (min_eq_right (not_lt.mp hlt)).symm
  · refine .inr ⟨passed_setBest h hqueue hp hzero (by decide) rfl rfl, hzero, .inr hneg, hupdate _, hqueue, rfl, ?_⟩
    rw [if_pos (show s.best c < 0 from hneg)]
    rfl
  · have hcpos : 0 < s.best c := by
      have : ¬ s.best c < 0 := hneg
      omega
    have hpneg : s.best p < 0 := by
      have : ¬ (0 < s.best p ∧ 0 < s.best c) := hpos
      have : s.best p ≠ 0 := hzero
      omega
    refine .inr ⟨passed_setBest h hqueue hp hzero (by decide) rfl rfl, hzero, .inl hpneg, hupdate _, hqueue, rfl, ?_⟩
    rw [if_neg (show ¬ s.best c < 0 from hneg)]
    rfl

omit [DecidableEq C] in
lemma Merged.sound {p : C} (hm : Merged dag s c p s') (h : BranchInv dag tip bases s) (hp : FirstParent dag c p) :
    Sound dag tip bases s' p := by
  have hhanded : Handed s' c := (hm.passed.handed c).mpr (.inr rfl)
  constructor
  · intro hneg
    obtain ⟨-, heq⟩ | ⟨hpos, hcpos, heq⟩ := hm.label
    · rw [heq] at hneg ⊢
      obtain ⟨hbest, hin, -⟩ := h.negative c hneg
      exact ⟨hbest, hin.tail hp, .inr ⟨c, hhanded, hin, hp⟩⟩
    · omega
  · intro hpos
    have hfrom : s'.best p = s.best c ∨ s'.best p = s.best p := by
      obtain ⟨-, heq⟩ | ⟨-, -, heq⟩ := hm.label
      · exact .inl heq
      · exact heq ▸ min_choice _ _
    obtain heq | heq := hfrom
    · obtain ⟨i, hi, base, hbase, hin⟩ := h.positive c (heq ▸ hpos)
      exact ⟨i, heq.trans hi, base, hbase, hin.tail hp⟩
    · obtain ⟨i, hi, hin⟩ := h.positive p (heq ▸ hpos)
      exact ⟨i, heq.trans hi, hin⟩

omit [DecidableEq C] in
lemma Merged.arrivesBase {p : C} (hm : Merged dag s c p s') (h : BranchInv dag tip bases s) (hc : c ∈ s.queue)
    (hp : FirstParent dag c p) {d : C} (hold : ∀ v, Arrives dag tip bases s d v → 0 < v → 0 < s.best d ∧ s.best d ≤ v)
    {v : Int} (hv : Arrives dag tip bases s' d v) (hpos : 0 < v) : 0 < s'.best d ∧ s'.best d ≤ v := by
  by_cases hdp : d = p
  · subst hdp
    obtain hv | ⟨-, rfl⟩ := hm.passed.arrives h hc hv
    · obtain ⟨hpos', hle⟩ := hold v hv hpos
      obtain ⟨hzero, -⟩ | ⟨-, hcpos, heq⟩ := hm.label <;> omega
    · obtain ⟨-, heq⟩ | ⟨hpos', hcpos, heq⟩ := hm.label <;> omega
  · have hno : ¬ FirstParent dag c d := fun hd => hdp (hd.unique hp)
    rw [hm.passed.best d hno]
    obtain hv | ⟨hd, -⟩ := hm.passed.arrives h hc hv
    · exact hold v hv hpos
    · exact absurd hd hno

omit [DecidableEq C] in
lemma BeforeBranch.merged {p : C} (hb : BeforeBranch dag tip bases s) (hm : Merged dag s c p s')
    (h : BranchInv dag tip bases s) (hc : c ∈ s.queue) (hp : FirstParent dag c p) : BeforeBranch dag tip bases s' := by
  refine ⟨hm.branchPoint.trans hb.branchPoint, hm.bestIndex.trans hb.bestIndex, fun d hd => ?_,
    fun d v hv hpos => hm.arrivesBase h hc hp (hb.arrivesBase d) hv hpos⟩
  by_cases hdp : d = p
  · subst hdp
    obtain hd | ⟨-, hlabel⟩ := hm.passed.arrives h hc hd
    · have := hb.arrivesTip d hd
      obtain ⟨hzero, -⟩ | ⟨hpos, -⟩ := hm.label <;> omega
    · obtain ⟨-, heq⟩ | ⟨-, hcpos, -⟩ := hm.label <;> omega
  · have hno : ¬ FirstParent dag c d := fun hd => hdp (hd.unique hp)
    rw [hm.passed.best d hno]
    obtain hd | ⟨hd, -⟩ := hm.passed.arrives h hc hd
    · exact hb.arrivesTip d hd
    · exact absurd hd hno

omit [DecidableEq C] in
lemma AtBranch.merged {p point : C} (hb : AtBranch dag tip bases s point) (hm : Merged dag s c p s')
    (h : BranchInv dag tip bases s) (hc : c ∈ s.queue) (hp : FirstParent dag c p) (hne : c ≠ point) :
    AtBranch dag tip bases s' point := by
  have hpoint : p ≠ point := by
    rintro rfl
    have := hb.best
    obtain ⟨hzero, -⟩ | ⟨hpos, -⟩ := hm.label <;> omega
  have hno : ¬ FirstParent dag c point := fun hd => hpoint (hp.unique hd)
  have hbest := hm.passed.best point hno
  refine ⟨hm.branchPoint.trans hb.branchPoint, hb.inTip, ?_, hbest.trans hb.best, hm.bestIndex ▸ hb.bestIndex,
    fun d hd hdp => (hm.passed.handed d).mpr (.inl (hb.tipChild d hd hdp)), fun v hv hpos => ?_,
    fun d hd v hv hpos => hm.arrivesBase h hc hp (hb.arrivesBase d hd) hv hpos⟩
  · by_contra hout
    have hhanded : Handed s' point := ⟨by rw [hbest, hb.best]; decide, hout⟩
    obtain hhanded | heq := (hm.passed.handed point).mp hhanded
    · exact hhanded.2 hb.queued
    · exact hne heq.symm
  · rw [hm.bestIndex]
    obtain hv | ⟨hd, -⟩ := hm.passed.arrives h hc hv
    · exact hb.arrivesPoint v hv hpos
    · exact absurd hd hno

omit [DecidableEq C] in
lemma Agreed.queued {p : C} (hm : Agreed dag s c p s') (h : BranchInv dag tip bases s) (hc : c ∈ s.queue)
    (hp : FirstParent dag c p) : p ∈ s'.queue := by
  have hin : p ∈ s.queue := by
    by_contra hout
    exact h.not_handed hc hp ⟨hm.labelled, hout⟩
  rw [hm.queue] at hin
  refine (List.mem_cons.mp hin).resolve_left ?_
  rintro rfl
  exact hp.not_inHistory .refl

omit [DecidableEq C] in
lemma Agreed.arrivesBase {p : C} (hm : Agreed dag s c p s') (h : BranchInv dag tip bases s) (hc : c ∈ s.queue)
    (hp : FirstParent dag c p) {d : C} (hd : d ≠ p)
    (hold : ∀ v, Arrives dag tip bases s d v → 0 < v → 0 < s.best d ∧ s.best d ≤ v)
    {v : Int} (hv : Arrives dag tip bases s' d v) (hpos : 0 < v) : 0 < s'.best d ∧ s'.best d ≤ v := by
  have hno : ¬ FirstParent dag c d := fun hdp => hd (hdp.unique hp)
  rw [hm.passed.best d hno]
  obtain hv | ⟨hdp, -⟩ := hm.passed.arrives h hc hv
  · exact hold v hv hpos
  · exact absurd hdp hno

omit [DecidableEq C] in
lemma Agreed.sound {p : C} (hm : Agreed dag s c p s') (htip : InHistory dag tip p)
    (hfrom : p = tip ∨ ∃ d, Handed s' d ∧ InHistory dag tip d ∧ FirstParent dag d p) : Sound dag tip bases s' p :=
  ⟨fun _ => ⟨hm.label, htip, hfrom⟩, fun hpos => by
    have := hm.label
    omega⟩

omit [DecidableEq C] in
lemma BeforeBranch.agreed {p : C} (hb : BeforeBranch dag tip bases s) (hm : Agreed dag s c p s')
    (h : BranchInv dag tip bases s) (hp : FirstParent dag c p) :
    Sound dag tip bases s' p ∧ AtBranch dag tip bases s' p := by
  have hc : c ∈ s.queue := hm.queue ▸ List.mem_cons_self ..
  have hhanded : Handed s' c := (hm.passed.handed c).mpr (.inr rfl)
  have hindex : s'.bestIndex = if s.best c < 0 then s.best p else s.best c := by
    rw [hm.bestIndex, if_pos (.inl (by rw [hb.bestIndex]; decide))]
  by_cases hneg : s.best c < 0
  · obtain ⟨hlabel, htip, -⟩ := h.negative c hneg
    rw [if_pos hneg] at hindex
    have hpos : 0 < s.best p := by
      by_contra hno
      obtain ⟨-, -, hfrom⟩ := h.negative p (lt_of_le_of_ne (not_lt.mp hno) hm.labelled)
      obtain rfl | ⟨d, hd, hdtip, hdp⟩ := hfrom
      · exact hp.not_inHistory htip
      · exact (htip.child_unique hdtip hp hdp ▸ hd).2 hc
    refine ⟨hm.sound (htip.tail hp) (.inr ⟨c, hhanded, htip, hp⟩), hm.branchPoint, htip.tail hp, hm.queued h hc hp,
      hm.label, hindex ▸ h.positive p hpos, fun d hd hdp => ?_, fun v hv hvpos => ?_,
      fun d hd v hv hvpos => hm.arrivesBase h hc hp hd (hb.arrivesBase d) hv hvpos⟩
    · exact htip.child_unique hd hp hdp ▸ hhanded
    · rw [hindex]
      obtain hv | ⟨-, rfl⟩ := hm.passed.arrives h hc hv
      · exact (hb.arrivesBase p v hv hvpos).2
      · omega
  · have hpneg : s.best p < 0 := hm.signs.resolve_right hneg
    obtain ⟨hlabel, htip, hfrom⟩ := h.negative p hpneg
    rw [if_neg hneg] at hindex
    have hcpos : 0 < s.best c := lt_of_le_of_ne (not_lt.mp hneg) (s.labelled c hc).symm
    obtain ⟨i, hi, base, hbase, hin⟩ := h.positive c hcpos
    have hfrom' : p = tip ∨ ∃ d, Handed s' d ∧ InHistory dag tip d ∧ FirstParent dag d p :=
      hfrom.imp_right fun ⟨d, hd, hrest⟩ => ⟨d, (hm.passed.handed d).mpr (.inl hd), hrest⟩
    refine ⟨hm.sound htip hfrom', hm.branchPoint, htip, hm.queued h hc hp, hm.label,
      ⟨i, hindex.trans hi, base, hbase, hin.tail hp⟩, fun d hd hdp => ?_, fun v hv hvpos => ?_,
      fun d hd v hv hvpos => hm.arrivesBase h hc hp hd (hb.arrivesBase d) hv hvpos⟩
    · obtain rfl | ⟨e, he, hetip, hep⟩ := hfrom'
      · exact absurd hd hdp.not_inHistory
      · exact hetip.child_unique hd hep hdp ▸ he
    · rw [hindex]
      obtain hv | ⟨-, rfl⟩ := hm.passed.arrives h hc hv
      · have := (hb.arrivesBase p v hv hvpos).1
        omega
      · exact le_rfl

omit [DecidableEq C] in
lemma AtBranch.agreed {p point : C} (hb : AtBranch dag tip bases s point) (hm : Agreed dag s c p s')
    (h : BranchInv dag tip bases s) (hp : FirstParent dag c p) (hne : c ≠ point) (hcpos : 0 < s.best c) :
    Sound dag tip bases s' p ∧ AtBranch dag tip bases s' point := by
  have hc : c ∈ s.queue := hm.queue ▸ List.mem_cons_self ..
  obtain ⟨-, htip, hfrom⟩ := h.negative p (hm.signs.resolve_right (by omega))
  have hnot := h.not_handed hc hp
  have hpoint : p = point := by
    by_contra hpne
    obtain hin | hin := htip.total hb.inTip
    · exact hnot (hb.handed_of_above h htip hin hpne)
    · obtain rfl | ⟨d, hd, hdtip, hdp⟩ := hfrom
      · exact hpne (hb.inTip.antisymm hin)
      · -- the commit before it would be above the branch point or below
        obtain hdin | hdin := hdtip.total hb.inTip
        · by_cases hdpoint : d = point
          · exact (hdpoint ▸ hd).2 hb.queued
          · exact hpne ((hdin.of_ne hdp hdpoint).antisymm hin)
        · exact (h.handed_above hd (.inl hb.inTip) hdin).2 hb.queued
  subst hpoint
  have hfrom' : p = tip ∨ ∃ d, Handed s' d ∧ InHistory dag tip d ∧ FirstParent dag d p :=
    hfrom.imp_right fun ⟨d, hd, hrest⟩ => ⟨d, (hm.passed.handed d).mpr (.inl hd), hrest⟩
  obtain ⟨i, hi, hini⟩ := hb.bestIndex
  obtain ⟨j, hj, base, hbase, hin⟩ := h.positive c hcpos
  have hindex : s'.bestIndex = min s.bestIndex (s.best c) := by
    rw [hm.bestIndex, if_neg (show ¬ s.best c < 0 by omega)]
    split_ifs with hlt
    · exact (min_eq_right (by omega)).symm
    · exact (min_eq_left (by omega)).symm
  refine ⟨hm.sound htip hfrom', hm.branchPoint, htip, hm.queued h hc hp, hm.label, ?_,
    fun d hd hdp => (hm.passed.handed d).mpr (.inl (hb.tipChild d hd hdp)), fun v hv hvpos => ?_,
    fun d hd v hv hvpos => hm.arrivesBase h hc hp hd (hb.arrivesBase d hd) hv hvpos⟩
  · obtain hmin | hmin := min_choice s.bestIndex (s.best c)
    · exact ⟨i, (hindex.trans hmin).trans hi, hini⟩
    · exact ⟨j, (hindex.trans hmin).trans hj, base, hbase, hin.tail hp⟩
  · rw [hindex]
    obtain hv | ⟨-, rfl⟩ := hm.passed.arrives h hc hv
    · exact (min_le_left _ _).trans (hb.arrivesPoint v hv hvpos)
    · exact min_le_right _ _

end Inv

def HistoryInv (dag : CommitDag C) (tip : C) (bases : List C) (s : BranchState C) : Prop :=
  BranchInv dag tip bases s ∧ (BeforeBranch dag tip bases s ∨ ∃ point, AtBranch dag tip bases s point)

/-- The histories of `bases[i]`, and of no base before it, come to the first commit of the tip's
history that is in the history of a base. -/
structure NearestBase (dag : CommitDag C) (tip : C) (bases : List C) (i : Nat) (point : C) : Prop where
  inTip : InHistory dag tip point
  inBase : InBase dag bases i point
  least : ∀ j, InBase dag bases j point → i ≤ j
  nearest : ∀ c j, InHistory dag tip c → InBase dag bases j c → InHistory dag point c

section Walk

variable {s s' : BranchState C} {c : C} {queue : List C}

lemma HistoryInv.popped (h : HistoryInv dag tip bases s) (hfinal : Final dag tip bases s c)
    (hchild : ∀ d, Chained dag tip bases d → FirstParent dag d c → Handed s d) (hqueue : s.queue = c :: queue)
    (hpoint : s.branchPoint ≠ some c) (hparents : dag.parents c = []) :
    HistoryInv dag tip bases (popBest s c queue hqueue) := by
  have hc : c ∈ s.queue := hqueue ▸ List.mem_cons_self ..
  have hpass := passed_popBest h.1 hqueue hparents
  have hnone : ∀ p, ¬ FirstParent dag c p := by
    intro p hp
    rw [FirstParent, hparents] at hp
    cases hp
  have harrives : ∀ {d v}, Arrives dag tip bases (popBest s c queue hqueue) d v → Arrives dag tip bases s d v :=
    fun hv => (hpass.arrives h.1 hc hv).resolve_right fun hd => hnone _ hd.1
  refine ⟨h.1.passed hc hfinal hchild hpass fun p hp => absurd hp (hnone p), ?_⟩
  obtain hb | ⟨point, hb⟩ := h.2
  · exact .inl ⟨hb.branchPoint, hb.bestIndex, fun d hd => hb.arrivesTip d (harrives hd),
      fun d v hv => hb.arrivesBase d v (harrives hv)⟩
  · have hne : point ≠ c := by
      rintro rfl
      exact hpoint hb.branchPoint
    have hqueued := hb.queued
    rw [hqueue] at hqueued
    exact .inr ⟨point, hb.branchPoint, hb.inTip, (List.mem_cons.mp hqueued).resolve_left hne, hb.best, hb.bestIndex,
      fun d hd hdp => (hpass.handed d).mpr (.inl (hb.tipChild d hd hdp)), fun v hv => hb.arrivesPoint v (harrives hv),
      fun d hd v hv => hb.arrivesBase d hd v (harrives hv)⟩

variable [DecidableEq C]

lemma HistoryInv.passBest (h : HistoryInv dag tip bases s) (hfinite : ∀ c, dag.generation c < generationNumberInfinity)
    (hfinal : Final dag tip bases s c) (hqueue : s.queue = c :: queue) (hpoint : s.branchPoint ≠ some c) {p : C}
    (hp : FirstParent dag c p) (hlabel : (popBest s c queue hqueue).best c ≠ 0) :
    HistoryInv dag tip bases (passBest dag (popBest s c queue hqueue) c p hlabel) := by
  have hc : c ∈ s.queue := hqueue ▸ List.mem_cons_self ..
  have hchild : ∀ d, Chained dag tip bases d → FirstParent dag d c → Handed s d :=
    fun d hd hdc => h.1.handed_child hfinite hqueue hd hdc
  have hkeep : ∀ {s'}, Passed dag s c s' → Sound dag tip bases s' p → BranchInv dag tip bases s' :=
    fun hpass hsound => h.1.passed hc hfinal hchild hpass fun q hq => hp.unique hq ▸ hsound
  obtain hb | ⟨point, hb⟩ := h.2
  · obtain hm | hm := passBest_cases h.1 hqueue hp hlabel
    · exact ⟨hkeep hm.passed (hm.sound h.1 hp), .inl (hb.merged hm h.1 hc hp)⟩
    · obtain ⟨hsound, hat⟩ := hb.agreed hm h.1 hp
      exact ⟨hkeep hm.passed hsound, .inr ⟨p, hat⟩⟩
  · have hne : c ≠ point := by
      rintro rfl
      exact hpoint hb.branchPoint
    have hcpos : 0 < s.best c := by
      by_contra hno
      have hneg : s.best c < 0 := lt_of_le_of_ne (not_lt.mp hno) hlabel
      exact hb.not_inTip h.1 hfinite hqueue hne (h.1.negative c hneg).2.1
    obtain hm | hm := passBest_cases h.1 hqueue hp hlabel
    · exact ⟨hkeep hm.passed (hm.sound h.1 hp), .inr ⟨point, hb.merged hm h.1 hc hp hne⟩⟩
    · obtain ⟨hsound, hat⟩ := hb.agreed hm h.1 hp hne hcpos
      exact ⟨hkeep hm.passed hsound, .inr ⟨point, hat⟩⟩

lemma HistoryInv.step (h : HistoryInv dag tip bases s) (hfinite : ∀ c, dag.generation c < generationNumberInfinity)
    (hs : branchStep dag s = .inl s') : HistoryInv dag tip bases s' := by
  unfold branchStep at hs
  split at hs
  · cases hs
  · rename_i c queue hqueue
    split_ifs at hs with hpoint
    have hfinal : Final dag tip bases s c := by
      obtain hb | ⟨point, hb⟩ := h.2
      · exact hb.final h.1 hfinite hqueue
      · refine hb.final h.1 hfinite hqueue ?_
        rintro rfl
        exact hpoint hb.branchPoint
    split at hs
    · rename_i hparents
      obtain rfl := Sum.inl.inj hs
      exact h.popped hfinal (fun d hd hdc => h.1.handed_child hfinite hqueue hd hdc) hqueue hpoint hparents
    · rename_i p _ hparents
      obtain rfl := Sum.inl.inj hs
      have hp : FirstParent dag c p := by
        rw [FirstParent, hparents]
        rfl
      exact h.passBest hfinite hfinal hqueue hpoint hp _

omit [DecidableEq C] in
lemma BranchInv.not_handed_both (h : BranchInv dag tip bases s) {i : Nat} (htip : InHistory dag tip c)
    (hi : InBase dag bases i c) : ¬ Handed s c := by
  intro hc
  have hlabel := (h.final c hc).ofTip htip
  have hpos := ((h.final c hc).ofBase i hi).1
  omega

lemma HistoryInv.last (h : HistoryInv dag tip bases s) (hfinite : ∀ c, dag.generation c < generationNumberInfinity) {r : Int}
    (hs : branchStep dag s = .inr r) :
    (r = -1 ∧ ∀ c i, InHistory dag tip c → ¬ InBase dag bases i c) ∨
      ∃ (i : Nat) (point : C), r = i + 1 ∧ NearestBase dag tip bases i point := by
  unfold branchStep at hs
  split at hs
  · rename_i hqueue
    obtain rfl := Sum.inr.inj hs
    obtain hb | ⟨point, hb⟩ := h.2
    · refine .inl ⟨hb.bestIndex, fun c i htip hi => ?_⟩
      obtain ⟨e, he, -⟩ := h.1.exists_queued (.inl htip) (h.1.not_handed_both htip hi)
      rw [hqueue] at he
      cases he
    · have := hb.queued
      rw [hqueue] at this
      cases this
  · rename_i c queue hqueue
    split_ifs at hs with hpoint
    · obtain rfl := Sum.inr.inj hs
      obtain hb | ⟨point, hb⟩ := h.2
      · rw [hb.branchPoint] at hpoint
        cases hpoint
      · obtain rfl : point = c := Option.some.inj (hb.branchPoint.symm.trans hpoint)
        obtain ⟨i, hi, hin⟩ := hb.bestIndex
        refine .inr ⟨i, point, hi, hb.inTip, hin, fun j hj => ?_, fun d j hd hj => ?_⟩
        · obtain ⟨v, hv, hpos, hle⟩ := h.1.exists_arrives hfinite hqueue hj
          have := (hb.arrivesPoint v hv hpos).trans hle
          omega
        · obtain hbelow | habove := hb.inTip.total hd
          · exact hbelow
          · by_cases hne : d = point
            · exact hne ▸ .refl
            · exact absurd (hb.handed_of_above h.1 hd habove hne) (h.1.not_handed_both hd hj)
    · split at hs <;> cases hs

end Walk

section Start

variable [DecidableEq C] {s : BranchState C}

lemma idxOf_le_of_getElem? {list : List C} {i : Nat} {c : C} (h : list[i]? = some c) : list.idxOf c ≤ i := by
  induction list generalizing i with
  | nil => simp at h
  | cons first list ih =>
    by_cases hc : first = c
    · rw [List.idxOf_cons_eq _ hc]
      exact Nat.zero_le _
    · rw [List.idxOf_cons_ne _ hc]
      cases i with
      | zero => exact absurd (Option.some.inj h) hc
      | succ i => exact Nat.succ_le_succ (ih h)

lemma getElem?_idxOf {list : List C} {c : C} (h : c ∈ list) : list[list.idxOf c]? = some c := by
  rw [List.getElem?_eq_getElem (List.idxOf_lt_length_of_mem h), List.getElem_idxOf]

structure PutAll (dag : CommitDag C) (list : List C) (n : Nat) (s s' : BranchState C) : Prop where
  best : ∀ c, s'.best c = if s.best c = 0 ∧ c ∈ list then (n : Int) + list.idxOf c + 1 else s.best c
  queue : ∀ c, c ∈ s'.queue ↔ c ∈ s.queue ∨ (s.best c = 0 ∧ c ∈ list)
  sorted : s.queue.Pairwise (fun a b => compareCommitsByGenThenCommitDate dag a b = true) →
    s'.queue.Pairwise (fun a b => compareCommitsByGenThenCommitDate dag a b = true)
  nodup : s.queue.Nodup → s'.queue.Nodup
  branchPoint : s'.branchPoint = s.branchPoint
  bestIndex : s'.bestIndex = s.bestIndex

lemma PutAll.skip {c : C} {list : List C} {n : Nat} {s' : BranchState C} (h : PutAll dag list (n + 1) s s')
    (hc : s.best c ≠ 0) : PutAll dag (c :: list) n s s' := by
  refine ⟨fun d => ?_, fun d => ?_, h.sorted, h.nodup, h.branchPoint, h.bestIndex⟩
  · by_cases hd : c = d
    · subst hd
      rw [h.best, if_neg (fun hin => hc hin.1), if_neg (fun hin => hc hin.1)]
    · have hmem : d ∈ c :: list ↔ d ∈ list := by simp [Ne.symm hd]
      rw [h.best, List.idxOf_cons_ne _ hd]
      simp only [hmem]
      split_ifs <;> omega
  · rw [h.queue]
    by_cases hd : d = c
    · subst hd
      simp [hc]
    · simp [hd]

lemma PutAll.put {c : C} {list : List C} {n : Nat} {s' : BranchState C} (hv : (n : Int) + 1 ≠ 0)
    (h : PutAll dag list (n + 1) (putBest dag s c (n + 1) hv) s') (hc : s.best c = 0) :
    PutAll dag (c :: list) n s s' := by
  have hbest : ∀ d, (putBest dag s c (n + 1) hv).best d = if d = c then (n : Int) + 1 else s.best d :=
    fun d => best_setBest s c d _ hv
  have hnotin : c ∉ s.queue := fun hin => s.labelled c hin hc
  refine ⟨fun d => ?_, fun d => ?_, fun hsorted => h.sorted ?_, fun hnodup => h.nodup ?_, h.branchPoint, h.bestIndex⟩
  · rw [h.best, hbest]
    by_cases hd : c = d
    · subst hd
      rw [if_pos rfl, if_neg (fun hin => hv hin.1), if_pos ⟨hc, List.mem_cons_self ..⟩]
      simp
    · have hmem : d ∈ c :: list ↔ d ∈ list := by simp [Ne.symm hd]
      rw [if_neg (Ne.symm hd), List.idxOf_cons_ne _ hd]
      simp only [hmem]
      split_ifs <;> omega
  · rw [h.queue, hbest]
    simp only [putBest, mem_prioQueuePut, List.mem_cons]
    by_cases hd : d = c
    · subst hd
      simp [hc]
    · simp [hd]
  · exact sorted_prioQueuePut (queueOrder_gen dag) hsorted
  · exact (perm_prioQueuePut _ c s.queue).nodup_iff.mpr (List.nodup_cons.mpr ⟨hnotin, hnodup⟩)

lemma putBases_of_notMem (list : List C) (n : Nat) (s : BranchState C) (hlabels : ∀ c ∈ list, s.best c ≠ -1) :
    ∃ s', putBases dag s (list.zipIdx n) = .inl s' ∧ PutAll dag list n s s' := by
  induction list generalizing n s with
  | nil => exact ⟨s, rfl, by simp, by simp, id, id, rfl, rfl⟩
  | cons c list ih =>
    have hv : (n : Int) + 1 ≠ 0 := by omega
    rw [List.zipIdx_cons, putBases]
    by_cases hc : s.best c = 0
    · obtain ⟨s', hput, hall⟩ := ih (n + 1) (putBest dag s c (n + 1) hv) fun d hd => by
        rw [putBest, best_setBest]
        split_ifs
        · omega
        · exact hlabels d (List.mem_cons_of_mem _ hd)
      rw [if_neg (not_not_intro hc)]
      exact ⟨s', hput, hall.put hv hc⟩
    · obtain ⟨s', hput, hall⟩ := ih (n + 1) s fun d hd => hlabels d (List.mem_cons_of_mem _ hd)
      rw [if_pos hc, if_neg (hlabels c (List.mem_cons_self ..))]
      exact ⟨s', hput, hall.skip hc⟩

lemma putBases_of_mem (list : List C) (n : Nat) (s : BranchState C) (htip : s.best tip = -1)
    (hlabels : ∀ c, c ≠ tip → s.best c ≠ -1) (hmem : tip ∈ list) :
    putBases dag s (list.zipIdx n) = .inr ((n : Int) + list.idxOf tip + 1) := by
  induction list generalizing n s with
  | nil => cases hmem
  | cons c list ih =>
    rw [List.zipIdx_cons, putBases]
    by_cases hc : c = tip
    · rw [hc, if_pos (by rw [htip]; decide), if_pos htip, List.idxOf_cons_self]
      simp
    · have hmem' : tip ∈ list := (List.mem_cons.mp hmem).resolve_left (Ne.symm hc)
      have hindex : (n : Int) + (c :: list).idxOf tip + 1 = (n + 1 : Nat) + list.idxOf tip + 1 := by
        rw [List.idxOf_cons_ne _ hc]
        omega
      rw [if_neg (hlabels c hc), hindex]
      split_ifs with hlabel
      · exact ih (n + 1) s htip hlabels hmem'
      · refine ih (n + 1) _ ?_ (fun d hd => ?_) hmem'
        · rw [putBest, best_setBest, if_neg (Ne.symm hc)]
          exact htip
        · rw [putBest, best_setBest]
          split_ifs
          · omega
          · exact hlabels d hd

lemma historyInv_start (htip : tip ∉ bases) :
    ∃ s, putBases dag (branchStart tip) bases.zipIdx = .inl s ∧ HistoryInv dag tip bases s := by
  have hstart : ∀ c, (branchStart tip).best c = if c = tip then -1 else 0 :=
    fun c => Function.update_apply (fun _ => 0) tip (-1) c
  obtain ⟨s, hput, hall⟩ := @putBases_of_notMem _ dag _ bases 0 (branchStart tip) fun c hc => by
    rw [hstart, if_neg (ne_of_mem_of_not_mem hc htip)]
    decide
  have hbest : ∀ c, s.best c = if c = tip then -1 else if c ∈ bases then (bases.idxOf c : Int) + 1 else 0 := by
    intro c
    rw [hall.best, hstart]
    by_cases hc : c = tip
    · simp [hc]
    · simp [hc]
  have hqueue : ∀ c, c ∈ s.queue ↔ c = tip ∨ c ∈ bases := by
    intro c
    rw [hall.queue, hstart]
    by_cases hc : c = tip <;> simp [hc, branchStart]
  have hno : ∀ c, ¬ Handed s c := by
    rintro c ⟨hlabel, hout⟩
    rw [hqueue, not_or] at hout
    rw [hbest, if_neg hout.1, if_neg hout.2] at hlabel
    exact hlabel rfl
  refine ⟨s, hput, ?_, .inl ?_⟩
  · constructor
    case sorted => exact hall.sorted (by simp [branchStart])
    case nodup => exact hall.nodup (by simp [branchStart])
    case startTip =>
      rw [hbest, if_pos rfl]
      decide
    case startBase =>
      intro base hbase
      rw [hbest, if_neg (ne_of_mem_of_not_mem hbase htip), if_pos hbase]
      omega
    case next => exact fun c p hc => absurd hc (hno c)
    case negative =>
      intro c hc
      rw [hbest] at hc ⊢
      by_cases heq : c = tip
      · subst heq
        exact ⟨if_pos rfl, .refl, .inl rfl⟩
      · rw [if_neg heq] at hc
        split_ifs at hc <;> omega
    case positive =>
      intro c hc
      rw [hbest] at hc ⊢
      split_ifs at hc ⊢ with heq hin
      · omega
      · exact ⟨bases.idxOf c, rfl, c, getElem?_idxOf hin, .refl⟩
      · omega
    case child => exact fun c d hc => absurd hc (hno c)
    case final => exact fun c hc => absurd hc (hno c)
  · refine ⟨hall.branchPoint, hall.bestIndex, fun c hc => ?_, fun c v hv hpos => ?_⟩
    · generalize hv : (-1 : Int) = v at hc
      cases hc with
      | tip heq => rw [hbest, if_pos heq]
      | base i hi => omega
      | child d hd _ => exact absurd hd (hno d)
    · cases hv with
      | tip _ => omega
      | base i hi =>
        have hin := List.mem_of_getElem? hi
        rw [hbest, if_neg (ne_of_mem_of_not_mem hin htip), if_pos hin]
        have := idxOf_le_of_getElem? hi
        omega
      | child d hd _ => exact absurd hd (hno d)

end Start

section Result

lemma NearestBase.ncard [Finite C] {i : Nat} {point best : C} (h : NearestBase dag tip bases i point)
    (hbest : bases[i]? = some best) : (∀ other ∈ bases, (ownCommits dag tip best).ncard ≤ (ownCommits dag tip other).ncard) ∧
      ∀ j < i, ∀ other, bases[j]? = some other → (ownCommits dag tip best).ncard < (ownCommits dag tip other).ncard := by
  have hin : InHistory dag best point := by
    obtain ⟨base, hbase, hin⟩ := h.inBase
    exact Option.some.inj (hbest.symm.trans hbase) ▸ hin
  have hsub : ∀ (j : Nat) (other : C), bases[j]? = some other → ownCommits dag tip best ⊆ ownCommits dag tip other := by
    intro j other hother c hc
    exact ⟨hc.1, fun hno => hc.2 (hin.trans (h.nearest c j hc.1 ⟨other, hother, hno⟩))⟩
  refine ⟨fun other hother => ?_, fun j hj other hother => ?_⟩
  · obtain ⟨j, hj⟩ := List.mem_iff_getElem?.mp hother
    exact Set.ncard_le_ncard (hsub j other hj)
  · refine Set.ncard_lt_ncard ((Set.ssubset_iff_of_subset (hsub j other hother)).mpr ⟨point, ⟨h.inTip, ?_⟩, ?_⟩)
    · intro hno
      exact (h.least j ⟨other, hother, hno⟩).not_gt hj
    · exact fun hc => hc.2 hin

variable [DecidableEq C] [Fintype C]

def childDag : CommitDag (Fin 2) where
  parents := ![[], [0]]
  date := ![1, 2]
  generation := ![1, 2]
  acyclic := Subrelation.wf (fun {p c} hp => by revert p c; decide) (wellFounded_lt (α := Fin 2))
  generation_pos := by decide
  generation_le := by simp [generationNumberInfinity]
  generation_lt := by
    intro c p hp _
    revert c p
    decide

end Result

end GitCore.Reach
