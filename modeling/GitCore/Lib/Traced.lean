import Mathlib.Tactic

/-!
# Computations with a log

A computation that records what it does and that may fail. `Sound` says what holds of every event
and of the result beside the events that led to it, and has a rule for each way to build one.
-/

namespace GitCore

universe u v

structure Traced (ω ε : Type u) (α : Type v) where
  log : List ω
  result : Except ε α

namespace Traced

variable {ω ε : Type u} {α β S : Type v}

def fail (e : ε) : Traced ω ε α :=
  ⟨[], .error e⟩

def emit (w : ω) (a : α) : Traced ω ε α :=
  ⟨[w], .ok a⟩

instance : Monad (Traced ω ε) where
  pure a := ⟨[], .ok a⟩
  bind m k :=
    match m.result with
    | .error e => ⟨m.log, .error e⟩
    | .ok a => ⟨m.log ++ (k a).log, (k a).result⟩

variable {m : Traced ω ε α} {k : α → Traced ω ε β}

lemma bind_ok {a : α} (h : m.result = .ok a) :
    m >>= k = ⟨m.log ++ (k a).log, (k a).result⟩ := by
  change (match m.result with
    | .error e => (⟨m.log, .error e⟩ : Traced ω ε β)
    | .ok a => ⟨m.log ++ (k a).log, (k a).result⟩) = _
  rw [h]

lemma bind_error {e : ε} (h : m.result = .error e) :
    m >>= k = ⟨m.log, .error e⟩ := by
  change (match m.result with
    | .error e => (⟨m.log, .error e⟩ : Traced ω ε β)
    | .ok a => ⟨m.log ++ (k a).log, (k a).result⟩) = _
  rw [h]

@[simp] lemma pure_log (a : α) : (pure a : Traced ω ε α).log = [] :=
  rfl

@[simp] lemma pure_result (a : α) : (pure a : Traced ω ε α).result = .ok a :=
  rfl

@[simp] lemma fail_log (e : ε) : (fail e : Traced ω ε α).log = [] :=
  rfl

@[simp] lemma fail_result (e : ε) : (fail e : Traced ω ε α).result = .error e :=
  rfl

@[simp] lemma emit_log (w : ω) (a : α) : (emit w a : Traced ω ε α).log = [w] :=
  rfl

@[simp] lemma emit_result (w : ω) (a : α) : (emit w a : Traced ω ε α).result = .ok a :=
  rfl

lemma pure_bind_eq (a : α) (k : α → Traced ω ε β) : (pure a : Traced ω ε α) >>= k = k a :=
  rfl

lemma mem_bind_log {w : ω} (h : w ∈ m.log) : w ∈ (m >>= k).log := by
  cases hm : m.result with
  | error e =>
    rw [bind_error hm]
    exact h
  | ok a =>
    rw [bind_ok hm]
    exact List.mem_append_left _ h

lemma mem_bind_log_right {a : α} (hm : m.result = .ok a) {w : ω}
    (h : w ∈ (k a).log) : w ∈ (m >>= k).log := by
  rw [bind_ok hm]
  exact List.mem_append_right _ h

lemma bind_result_ok {a : α} (h : m.result = .ok a) :
    (m >>= k).result = (k a).result := by
  rw [bind_ok h]

/-- Every event has the property `P`, and what is returned stands in the relation `Q` to the log. -/
structure Sound (P : ω → Prop) (Q : List ω → α → Prop) (m : Traced ω ε α) : Prop where
  log : ∀ w ∈ m.log, P w
  result : ∀ a, m.result = .ok a → Q m.log a

variable {P : ω → Prop} {Q Q' : List ω → α → Prop} {R : List ω → β → Prop}

lemma Sound.pure {a : α} (h : Q [] a) : Sound P Q (pure a : Traced ω ε α) where
  log := by simp
  result := by
    intro b hb
    cases hb
    exact h

lemma Sound.fail {e : ε} : Sound P Q (fail e : Traced ω ε α) where
  log := by simp
  result := by
    intro b hb
    cases hb

lemma Sound.emit {w : ω} {a : α} (hw : P w) (h : Q [w] a) : Sound P Q (emit w a : Traced ω ε α) where
  log := by simpa using hw
  result := by
    intro b hb
    cases hb
    exact h

lemma Sound.imp (h : Sound P Q m) (himp : ∀ l a, Q l a → Q' l a) : Sound P Q' m where
  log := h.log
  result := fun a ha => himp _ a (h.result a ha)

lemma Sound.weaken {P' : ω → Prop} {m : Traced ω ε α} (h : Sound P Q m) (himp : ∀ w, P w → P' w) : Sound P' Q m where
  log := fun w hw => himp w (h.log w hw)
  result := h.result

lemma Sound.named (h : Sound P Q m) : Sound P (fun l a => Q l a ∧ m.result = .ok a) m where
  log := h.log
  result := fun a ha => ⟨h.result a ha, ha⟩

lemma Sound.bind (hm : Sound P Q m)
    (hk : ∀ l a, Q l a → Sound P (fun l' b => R (l ++ l') b) (k a)) : Sound P R (m >>= k) := by
  cases hr : m.result with
  | error e =>
    rw [bind_error hr]
    exact ⟨hm.log, fun b hb => nomatch hb⟩
  | ok a =>
    rw [bind_ok hr]
    have ha := hk m.log a (hm.result a hr)
    constructor
    · intro w hw
      rcases List.mem_append.mp hw with hw | hw
      · exact hm.log w hw
      · exact ha.log w hw
    · exact ha.result

/-- In a run whose events all have the property `A` they all have `P` as well, and what is returned has `Q`. -/
def Relies (A P : ω → Prop) (Q : α → Prop) (m : Traced ω ε α) : Prop :=
  (∀ w ∈ m.log, A w) → (∀ w ∈ m.log, P w) ∧ ∀ a, m.result = .ok a → Q a

section Relies

variable {A P : ω → Prop} {Q Q' : α → Prop} {R : β → Prop}

lemma Relies.pure {a : α} (h : Q a) : Relies A P Q (pure a : Traced ω ε α) := by
  refine fun _ => ⟨by simp, fun b hb => ?_⟩
  cases hb
  exact h

lemma Relies.fail {e : ε} : Relies A P Q (fail e : Traced ω ε α) :=
  fun _ => ⟨by simp, fun b hb => nomatch hb⟩

lemma Relies.emit {w : ω} {a : α} (h : A w → P w ∧ Q a) : Relies A P Q (emit w a : Traced ω ε α) := by
  intro hA
  have hw := h (hA w (by simp))
  refine ⟨by simpa using hw.1, fun b hb => ?_⟩
  cases hb
  exact hw.2

lemma Relies.bind (hm : Relies A P Q m) (hk : ∀ a, Q a → Relies A P R (k a)) :
    Relies A P R (m >>= k) := by
  intro hA
  have hfirst := hm fun w hw => hA w (mem_bind_log hw)
  cases hr : m.result with
  | error e =>
    rw [bind_error hr]
    exact ⟨hfirst.1, fun b hb => nomatch hb⟩
  | ok a =>
    rw [bind_ok hr] at hA ⊢
    have hrest := hk a (hfirst.2 a hr) fun w hw => hA w (List.mem_append_right _ hw)
    refine ⟨fun w hw => ?_, hrest.2⟩
    rcases List.mem_append.mp hw with hw | hw
    · exact hfirst.1 w hw
    · exact hrest.1 w hw

/-- A loop over a list keeps what its rounds keep. -/
theorem Relies.foldlM {f : S → β → Traced ω ε S} {I : S → Prop} {l : List β}
    (hstep : ∀ s, ∀ b ∈ l, I s → Relies A P I (f s b)) {s : S} (h : I s) : Relies A P I (l.foldlM f s) := by
  induction l generalizing s with
  | nil => exact Relies.pure h
  | cons b l ih =>
    rw [List.foldlM_cons]
    exact (hstep s b (by simp) h).bind fun s' h' => ih (fun s b hb => hstep s b (by simp [hb])) h'

end Relies

/-- `while (cond) step` for a step that brings a measure down. -/
def whileDown (measure : S → Nat) (cond : S → Bool) (step : S → Traced ω ε S)
    (hdown : ∀ s s', cond s → (step s).result = .ok s' → measure s' < measure s) (s : S) : Traced ω ε S :=
  if _hcond : cond s then
    match _hresult : (step s).result with
    | .error e => ⟨(step s).log, .error e⟩
    | .ok s' =>
      let rest := whileDown measure cond step hdown s'
      ⟨(step s).log ++ rest.log, rest.result⟩
  else pure s
termination_by measure s
decreasing_by exact hdown s s' _hcond _hresult

section Loop

variable {measure : S → Nat} {cond : S → Bool} {step : S → Traced ω ε S}
  {hdown : ∀ s s', cond s → (step s).result = .ok s' → measure s' < measure s}

lemma whileDown_done {s : S} (h : ¬cond s) : whileDown measure cond step hdown s = pure s := by
  rw [whileDown, dif_neg h]

lemma whileDown_step {s : S} (h : cond s) :
    whileDown measure cond step hdown s = step s >>= whileDown measure cond step hdown := by
  rw [whileDown, dif_pos h]
  split
  · next e he => rw [bind_error he]
  · next s' hs' => rw [bind_ok hs']

/-- The rule of invariants: what a round keeps holds when the loop is left. -/
theorem Sound.whileDown (Inv : List ω → S → Prop)
    (hstep : ∀ l s, Inv l s → cond s → Sound P (fun l' s' => Inv (l ++ l') s') (step s)) {l : List ω} {s : S}
    (h : Inv l s) :
    Sound P (fun l' s' => Inv (l ++ l') s' ∧ ¬cond s') (Traced.whileDown measure cond step hdown s) := by
  induction hn : measure s using Nat.strong_induction_on generalizing l s with
  | _ n ih =>
    by_cases hcond : cond s
    · rw [whileDown_step hcond]
      refine (hstep l s h hcond).named.bind fun l' s' h' => ?_
      have hlt : measure s' < n := hn ▸ hdown s s' hcond h'.2
      have hrest := ih (measure s') hlt h'.1 rfl
      refine hrest.imp fun l'' s'' hend => ?_
      rwa [List.append_assoc] at hend
    · rw [whileDown_done hcond]
      refine Sound.pure ⟨?_, hcond⟩
      rwa [List.append_nil]

end Loop

end Traced

end GitCore
