import Mathlib.Tactic

/-!
# Loops with a measure

A loop whose rounds make a number smaller, with the rule of invariants for it.
-/

namespace GitCore

variable {S R : Type*}

/-- The rounds of `step` until it has a result. -/
def loop (step : S → S ⊕ R) (size : S → Nat) (hstep : ∀ s s', step s = .inl s' → size s' < size s) (s : S) : R :=
  match _h : step s with
  | .inl s' => loop step size hstep s'
  | .inr r => r
termination_by size s
decreasing_by exact hstep s s' _h

variable {step : S → S ⊕ R} {size : S → Nat} {hstep : ∀ s s', step s = .inl s' → size s' < size s}

lemma loop_of_inl {s s' : S} (h : step s = .inl s') : loop step size hstep s = loop step size hstep s' := by
  rw [loop]
  split
  · rename_i s₁ h₁
    rw [h] at h₁
    rw [Sum.inl.inj h₁]
  · rename_i r h₁
    rw [h] at h₁
    cases h₁

lemma loop_of_inr {s : S} {r : R} (h : step s = .inr r) : loop step size hstep s = r := by
  rw [loop]
  split
  · rename_i s₁ h₁
    rw [h] at h₁
    cases h₁
  · rename_i r₁ h₁
    rw [h] at h₁
    exact (Sum.inr.inj h₁).symm

def LoopRun (step : S → S ⊕ R) : S → S → Prop :=
  Relation.ReflTransGen (fun s s' => step s = .inl s')

lemma loop_of_run {s s' : S} {r : R} (hrun : LoopRun step s s') (h : step s' = .inr r) :
    loop step size hstep s = r := by
  induction hrun using Relation.ReflTransGen.head_induction_on with
  | refl => exact loop_of_inr h
  | head hs _ ih => exact (loop_of_inl hs).trans ih

lemma LoopRun.inv (Inv : S → Prop) (hkeep : ∀ s s', Inv s → step s = .inl s' → Inv s') {s s' : S}
    (hrun : LoopRun step s s') (h : Inv s) : Inv s' := by
  induction hrun with
  | refl => exact h
  | tail _ hs ih => exact hkeep _ _ ih hs

variable (step size hstep)

lemma exists_loopRun (s : S) : ∃ s', LoopRun step s s' ∧ step s' = .inr (loop step size hstep s) := by
  induction hn : size s using Nat.strong_induction_on generalizing s with
  | _ n ih =>
    cases hs : step s with
    | inl s₁ =>
      obtain ⟨s', hrun, hlast⟩ := ih (size s₁) (hn ▸ hstep s s₁ hs) s₁ rfl
      rw [loop_of_inl hs]
      exact ⟨s', hrun.head hs, hlast⟩
    | inr r =>
      rw [loop_of_inr hs]
      exact ⟨s, .refl, hs⟩

/-- What every round keeps holds when the loop ends. -/
theorem loop_inv (Inv : S → Prop) (Post : R → Prop) (hkeep : ∀ s s', Inv s → step s = .inl s' → Inv s')
    (hend : ∀ s r, Inv s → step s = .inr r → Post r) {s : S} (h : Inv s) : Post (loop step size hstep s) := by
  obtain ⟨s', hrun, hlast⟩ := exists_loopRun step size hstep s
  exact hend s' _ (hrun.inv Inv hkeep h) hlast

def runFor (step : S → S ⊕ R) : Nat → S → Option R
  | 0, _ => none
  | fuel + 1, s =>
    match step s with
    | .inl s' => runFor step fuel s'
    | .inr r => some r

variable {step size}

lemma runFor_eventually {s s' : S} {r : R} (hrun : LoopRun step s s') (h : step s' = .inr r) :
    ∀ᶠ fuel in Filter.atTop, runFor step fuel s = some r := by
  rw [Filter.eventually_atTop]
  induction hrun using Relation.ReflTransGen.head_induction_on with
  | refl =>
    refine ⟨1, fun fuel hfuel => ?_⟩
    obtain ⟨fuel, rfl⟩ := Nat.exists_eq_add_of_le' hfuel
    rw [runFor, h]
  | head hs _ ih =>
    obtain ⟨bound, hbound⟩ := ih
    refine ⟨bound + 1, fun fuel hfuel => ?_⟩
    obtain ⟨fuel, rfl⟩ := Nat.exists_eq_add_of_le' ((Nat.le_add_left 1 bound).trans hfuel)
    rw [runFor, hs]
    exact hbound fuel (Nat.le_of_succ_le_succ hfuel)

lemma runFor_of_run {s s' : S} {r : R} (hrun : LoopRun step s s') (h : step s' = .inr r) :
    ∃ fuel, runFor step fuel s = some r :=
  (runFor_eventually hrun h).exists

lemma runFor_unique {fuel fuel' : Nat} {s : S} {r r' : R} (h : runFor step fuel s = some r)
    (h' : runFor step fuel' s = some r') : r = r' := by
  induction fuel generalizing fuel' s with
  | zero => cases h
  | succ fuel ih =>
    cases fuel' with
    | zero => cases h'
    | succ fuel' =>
      rw [runFor] at h h'
      cases hs : step s with
      | inl s₁ =>
        rw [hs] at h h'
        exact ih h h'
      | inr r₁ =>
        rw [hs] at h h'
        exact Option.some_inj.mp (h.symm.trans h')

/-- While an invariant holds whose rounds make a number smaller, that many rounds are enough. -/
theorem runFor_inv (Inv : S → Prop) (Post : R → Prop)
    (hkeep : ∀ s s', Inv s → step s = .inl s' → Inv s' ∧ size s' < size s)
    (hend : ∀ s r, Inv s → step s = .inr r → Post r) {s : S} (h : Inv s) :
    ∃ r, Post r ∧ ∀ fuel, size s < fuel → runFor step fuel s = some r := by
  induction hn : size s using Nat.strong_induction_on generalizing s with
  | _ n ih =>
    cases hs : step s with
    | inl s₁ =>
      obtain ⟨hinv, hlt⟩ := hkeep s s₁ h hs
      obtain ⟨r, hpost, hrun⟩ := ih (size s₁) (hn ▸ hlt) hinv rfl
      refine ⟨r, hpost, fun fuel hfuel => ?_⟩
      cases fuel with
      | zero => omega
      | succ fuel =>
        rw [runFor, hs]
        exact hrun fuel (by omega)
    | inr r =>
      refine ⟨r, hend s r h hs, fun fuel hfuel => ?_⟩
      cases fuel with
      | zero => omega
      | succ fuel => rw [runFor, hs]

end GitCore
