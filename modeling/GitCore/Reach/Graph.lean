import GitCore.Lib.Loop

/-!
# Commits and their marks

The commits of `commit-reach.c` with their parents, dates and generation numbers, and the object
flags that the walks set on them.
-/

namespace GitCore.Reach

def generationNumberInfinity : Nat := 2 ^ 63 - 1

/-- The commits of a repository. A commit in the commit-graph has its parents in it, with
smaller numbers. -/
structure CommitDag (C : Type) where
  parents : C → List C
  date : C → Nat
  generation : C → Nat
  acyclic : WellFounded (fun p c => p ∈ parents c)
  generation_pos : ∀ c, 0 < generation c
  generation_le : ∀ c, generation c ≤ generationNumberInfinity
  generation_lt : ∀ c, ∀ p ∈ parents c, generation c < generationNumberInfinity → generation p < generation c

instance neZeroFour : NeZero 4 := ⟨by decide⟩

inductive Mark
  | parent1
  | parent2
  | stale
  | result
  | enqueued
  deriving DecidableEq

instance markFintype : Fintype Mark where
  elems := {.parent1, .parent2, .stale, .result, .enqueued}
  complete m := by cases m <;> decide

abbrev Marks (C : Type) := Finset (C × Mark)

section

variable {C : Type} (dag : CommitDag C)

def Reaches : C → C → Prop :=
  Relation.ReflTransGen (fun c p => p ∈ dag.parents c)

def ProperAncestor (d c : C) : Prop :=
  Relation.TransGen (fun c p => p ∈ dag.parents c) c d

def IsCommon (one : C) (twos : List C) (c : C) : Prop :=
  Reaches dag one c ∧ ∃ two ∈ twos, Reaches dag two c

def IsMergeBase (one : C) (twos : List C) (c : C) : Prop :=
  IsCommon dag one twos c ∧ ∀ d, IsCommon dag one twos d → ¬ ProperAncestor dag c d

variable {dag}

lemma not_properAncestor_self (c : C) : ¬ ProperAncestor dag c c := by
  intro h
  have hwf : WellFounded (Relation.TransGen (fun p c => p ∈ dag.parents c)) := dag.acyclic.transGen
  have hswap : Relation.TransGen (fun p c => p ∈ dag.parents c) c c := Relation.transGen_swap.mp h
  exact hwf.irrefl.irrefl c hswap

lemma ProperAncestor.reaches {c d : C} (h : ProperAncestor dag d c) : Reaches dag c d :=
  Relation.TransGen.to_reflTransGen h

lemma ProperAncestor.of_reaches_left {c d e : C} (h : ProperAncestor dag e d) (hr : Reaches dag c d) :
    ProperAncestor dag e c :=
  Relation.TransGen.trans_right hr h

lemma ProperAncestor.of_reaches_right {c d e : C} (h : ProperAncestor dag d c) (hr : Reaches dag d e) :
    ProperAncestor dag e c :=
  Relation.TransGen.trans_left h hr

lemma properAncestor_of_parent {c p d : C} (hp : p ∈ dag.parents c) (hr : Reaches dag p d) :
    ProperAncestor dag d c :=
  Relation.TransGen.head' hp hr

lemma reaches_iff_eq_or_properAncestor {c d : C} : Reaches dag c d ↔ d = c ∨ ProperAncestor dag d c :=
  Relation.reflTransGen_iff_eq_or_transGen

lemma generation_le_of_parent {c p : C} (h : p ∈ dag.parents c) : dag.generation p ≤ dag.generation c := by
  by_cases hc : dag.generation c < generationNumberInfinity
  · exact (dag.generation_lt c p h hc).le
  · exact (dag.generation_le p).trans (not_lt.mp hc)

lemma generation_le_of_reaches {c d : C} (h : Reaches dag c d) : dag.generation d ≤ dag.generation c := by
  induction h with
  | refl => exact le_rfl
  | tail _ hp ih => exact (generation_le_of_parent hp).trans ih

lemma generation_lt_of_properAncestor {c d : C} (h : ProperAncestor dag d c)
    (hc : dag.generation c < generationNumberInfinity) : dag.generation d < dag.generation c := by
  obtain ⟨p, hp, hr⟩ := Relation.TransGen.head'_iff.mp h
  exact (generation_le_of_reaches hr).trans_lt (dag.generation_lt c p hp hc)

lemma exists_maximal [Finite C] (P : C → Prop) {c : C} (hc : P c) :
    ∃ d, P d ∧ Reaches dag d c ∧ ∀ e, P e → ¬ ProperAncestor dag d e := by
  have hwf : WellFounded (fun e d => ProperAncestor dag d e) := by
    have : IsTrans C (fun e d => ProperAncestor dag d e) := ⟨fun _ _ _ h h' => Relation.TransGen.trans h h'⟩
    have : Std.Irrefl (fun e d => ProperAncestor dag d e) := ⟨fun c => not_properAncestor_self c⟩
    exact Finite.wellFounded_of_trans_of_irrefl _
  obtain ⟨d, ⟨hd, hreach⟩, hmax⟩ := hwf.has_min {d | P d ∧ Reaches dag d c} ⟨c, hc, Relation.ReflTransGen.refl⟩
  refine ⟨d, hd, hreach, fun e he hlt => ?_⟩
  exact hmax e ⟨he, hlt.reaches.trans hreach⟩ hlt

lemma exists_mergeBase [Finite C] {one : C} {twos : List C} {c : C} (h : IsCommon dag one twos c) :
    ∃ d, IsMergeBase dag one twos d ∧ Reaches dag d c := by
  obtain ⟨d, hd, hreach, hmax⟩ := @exists_maximal _ dag _ (IsCommon dag one twos) _ h
  exact ⟨d, ⟨hd, hmax⟩, hreach⟩

end

end GitCore.Reach
