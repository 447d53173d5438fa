import Mathlib.Data.Set.Basic
import Mathlib.Tactic

/-!
# Abbreviated object names

`update_disambiguate_state` and `finish_object_disambiguation` of `object-name.c`. The objects with the prefix are
reported in any order and any number of times; the result depends on which objects they are only.
-/

namespace GitCore.Objects

variable {Oid : Type}

/-- `struct disambiguate_state`, without the prefix. The hint is a predicate, or `NULL`. -/
structure DisambiguateState (Oid : Type) where
  fn : Option (Oid → Bool)
  candidate : Option Oid
  candidateChecked : Bool
  candidateOk : Bool
  disambiguateFnUsed : Bool
  ambiguous : Bool

/-- The state before the first report; `candidate_exists` tells whether there is a candidate. -/
def DisambiguateState.init (fn : Option (Oid → Bool)) : DisambiguateState Oid where
  fn := fn
  candidate := none
  candidateChecked := false
  candidateOk := false
  disambiguateFnUsed := false
  ambiguous := false

/-- `enum get_oid_result`, as far as it is returned here. -/
inductive GetOidResult (Oid : Type)
  | found (oid : Oid)
  | missingObject
  | shortNameAmbiguous
  deriving DecidableEq

def DisambiguateState.checkCandidate (ds : DisambiguateState Oid) (fn : Oid → Bool) (candidate : Oid) :
    DisambiguateState Oid :=
  if ds.candidateChecked then ds
  else { ds with candidateOk := fn candidate, disambiguateFnUsed := true, candidateChecked := true }

variable [DecidableEq Oid]

def DisambiguateState.update (ds : DisambiguateState Oid) (current : Oid) : DisambiguateState Oid × Bool :=
  match ds.candidate with
  | none => ({ ds with candidate := some current }, false)
  | some candidate =>
    if candidate = current then (ds, false)
    else
      match ds.fn with
      | none => ({ ds with ambiguous := true }, true)
      | some fn =>
        let ds := ds.checkCandidate fn candidate
        if ¬ ds.candidateOk then ({ ds with candidate := some current, candidateChecked := false }, false)
        else if fn current then ({ ds with candidateOk := false, ambiguous := true }, true)
        else (ds, false)

def DisambiguateState.updates (ds : DisambiguateState Oid) : List Oid → DisambiguateState Oid
  | [] => ds
  | current :: rest => if (ds.update current).2 then (ds.update current).1 else (ds.update current).1.updates rest

omit [DecidableEq Oid] in
/-- `finish_object_disambiguation`; a hint that is `NULL` is not called, since it was never used. -/
def DisambiguateState.finish (ds : DisambiguateState Oid) : GetOidResult Oid :=
  if ds.ambiguous then .shortNameAmbiguous
  else
    match ds.candidate with
    | none => .missingObject
    | some candidate =>
      let candidateOk :=
        if ds.candidateChecked then ds.candidateOk
        else !ds.disambiguateFnUsed || (ds.fn.map (· candidate)).getD false
      if candidateOk then .found candidate else .shortNameAmbiguous

def Satisfies (fn : Option (Oid → Bool)) (oid : Oid) : Prop := ∃ f ∈ fn, f oid = true

open Classical in
noncomputable def resultOf (fn : Option (Oid → Bool)) (reported : Set Oid) : GetOidResult Oid :=
  if reported = ∅ then .missingObject
  else if h : ∃ oid, reported = {oid} then .found h.choose
  else if h : ∃! oid, oid ∈ reported ∧ Satisfies fn oid then .found h.choose
  else .shortNameAmbiguous

section Result

variable {fn : Option (Oid → Bool)} {reported : Set Oid} {oid other : Oid}

omit [DecidableEq Oid]

lemma resultOf_singleton (fn : Option (Oid → Bool)) (oid : Oid) : resultOf fn {oid} = .found oid := by
  have h : ∃ other, ({oid} : Set Oid) = {other} := ⟨oid, rfl⟩
  rw [resultOf, if_neg (Set.singleton_ne_empty oid), dif_pos h]
  rw [← Set.singleton_injective h.choose_spec]

lemma not_singleton (hoid : oid ∈ reported) (hother : other ∈ reported) (hne : other ≠ oid) :
    ¬∃ oid, reported = {oid} := by
  rintro ⟨only, rfl⟩
  exact hne (hother.trans hoid.symm)

lemma resultOf_found (hoid : oid ∈ reported) (hother : other ∈ reported) (hne : other ≠ oid)
    (hsatisfies : Satisfies fn oid) (hunique : ∀ x ∈ reported, Satisfies fn x → x = oid) :
    resultOf fn reported = .found oid := by
  have h : ∃! oid, oid ∈ reported ∧ Satisfies fn oid := ⟨oid, ⟨hoid, hsatisfies⟩, fun x hx => hunique x hx.1 hx.2⟩
  rw [resultOf, if_neg (Set.nonempty_iff_ne_empty.mp ⟨oid, hoid⟩), dif_neg (not_singleton hoid hother hne), dif_pos h]
  rw [hunique _ h.choose_spec.1.1 h.choose_spec.1.2]

lemma resultOf_ambiguous (hoid : oid ∈ reported) (hother : other ∈ reported) (hne : other ≠ oid)
    (h : ¬∃! oid, oid ∈ reported ∧ Satisfies fn oid) : resultOf fn reported = .shortNameAmbiguous := by
  rw [resultOf, if_neg (Set.nonempty_iff_ne_empty.mp ⟨oid, hoid⟩), dif_neg (not_singleton hoid hother hne), dif_neg h]

def Clash (fn : Option (Oid → Bool)) (reported : Set Oid) : Prop :=
  ∃ oid ∈ reported, ∃ other ∈ reported, other ≠ oid ∧ ∀ f ∈ fn, f oid = true ∧ f other = true

lemma Clash.mono (h : Clash fn reported) {more : Set Oid} (hsub : reported ⊆ more) : Clash fn more := by
  obtain ⟨oid, hoid, other, hother, hrest⟩ := h
  exact ⟨oid, hsub hoid, other, hsub hother, hrest⟩

lemma Clash.resultOf (h : Clash fn reported) : resultOf fn reported = .shortNameAmbiguous := by
  obtain ⟨oid, hoid, other, hother, hne, hboth⟩ := h
  refine resultOf_ambiguous hoid hother hne ?_
  rintro ⟨only, ⟨-, f, hf, -⟩, hunique⟩
  obtain ⟨hfoid, hfother⟩ := hboth f hf
  exact hne ((hunique other ⟨hother, f, hf, hfother⟩).trans (hunique oid ⟨hoid, f, hf, hfoid⟩).symm)

end Result

structure Tracks (fn : Option (Oid → Bool)) (reported : Set Oid) (ds : DisambiguateState Oid) : Prop where
  fn_eq : ds.fn = fn
  ambiguous : ds.ambiguous = false
  empty : ds.candidate = none → reported = ∅ ∧ ds.disambiguateFnUsed = false
  mem : ∀ candidate ∈ ds.candidate, candidate ∈ reported
  alone : ds.disambiguateFnUsed = false → ∀ candidate ∈ ds.candidate, ∀ oid ∈ reported, oid = candidate
  used : ds.disambiguateFnUsed = true → ∃ f ∈ fn, ∀ candidate ∈ ds.candidate,
    (∃ oid ∈ reported, oid ≠ candidate) ∧ ∀ oid ∈ reported, oid ≠ candidate → f oid = false
  checked : ds.candidateChecked = true → ds.disambiguateFnUsed = true ∧ ds.candidateOk = true ∧
    ∀ f ∈ fn, ∀ candidate ∈ ds.candidate, f candidate = true

section Reports

variable {fn : Option (Oid → Bool)} {reported : Set Oid} {ds : DisambiguateState Oid}

omit [DecidableEq Oid] in
lemma tracks_init (fn : Option (Oid → Bool)) : Tracks fn ∅ (.init fn) where
  fn_eq := rfl
  ambiguous := rfl
  empty _ := ⟨rfl, rfl⟩
  mem := by simp [DisambiguateState.init]
  alone := by simp
  used := by simp [DisambiguateState.init]
  checked := by simp [DisambiguateState.init]

omit [DecidableEq Oid] in
lemma Tracks.finish (h : Tracks fn reported ds) : ds.finish = resultOf fn reported := by
  rw [DisambiguateState.finish, if_neg (by simp [h.ambiguous])]
  cases hcandidate : ds.candidate with
  | none =>
    rw [(h.empty hcandidate).1, resultOf, if_pos rfl]
  | some candidate =>
    have hmem := h.mem candidate hcandidate
    dsimp only
    cases hused : ds.disambiguateFnUsed with
    | false =>
      have hunchecked : ds.candidateChecked ≠ true := by
        intro hchecked
        rw [(h.checked hchecked).1] at hused
        cases hused
      have hsingle : reported = {candidate} :=
        Set.eq_singleton_iff_unique_mem.mpr ⟨hmem, h.alone hused candidate hcandidate⟩
      rw [if_neg hunchecked, hsingle, resultOf_singleton]
      rfl
    | true =>
      obtain ⟨f, hf, hothers⟩ := h.used hused
      obtain ⟨⟨other, hother, hne⟩, hfail⟩ := hothers candidate hcandidate
      have hunique : ∀ oid ∈ reported, Satisfies fn oid → oid = candidate := by
        rintro oid hoid ⟨f', hf', hsatisfies⟩
        obtain rfl := Option.mem_unique hf hf'
        by_contra hno
        rw [hfail oid hoid hno] at hsatisfies
        cases hsatisfies
      have hok : (if ds.candidateChecked = true then ds.candidateOk
          else !true || (ds.fn.map (· candidate)).getD false) = f candidate := by
        split_ifs with hchecked
        · obtain ⟨-, hok, hall⟩ := h.checked hchecked
          rw [hok, hall f hf candidate hcandidate]
        · rw [h.fn_eq, Option.mem_def.mp hf]
          rfl
      rw [hok]
      split_ifs with hsatisfies
      · exact (resultOf_found hmem hother hne ⟨f, hf, hsatisfies⟩ hunique).symm
      · refine (resultOf_ambiguous hmem hother hne ?_).symm
        rintro ⟨only, ⟨honly, hsatisfies'⟩, -⟩
        obtain rfl := hunique only honly hsatisfies'
        obtain ⟨f', hf', hsome⟩ := hsatisfies'
        obtain rfl := Option.mem_unique hf hf'
        exact hsatisfies hsome

omit [DecidableEq Oid] in
lemma Tracks.others (h : Tracks fn reported ds) {f : Oid → Bool} (hf : f ∈ fn) {candidate : Oid}
    (hcandidate : candidate ∈ ds.candidate) {oid : Oid} (hoid : oid ∈ reported) (hne : oid ≠ candidate) :
    f oid = false := by
  cases hused : ds.disambiguateFnUsed with
  | false => exact absurd (h.alone hused candidate hcandidate oid hoid) hne
  | true =>
    obtain ⟨f', hf', hothers⟩ := h.used hused
    obtain rfl := Option.mem_unique hf hf'
    exact (hothers candidate hcandidate).2 oid hoid hne

omit [DecidableEq Oid] in
lemma Tracks.checkCandidate (h : Tracks fn reported ds) {f : Oid → Bool} (hf : f ∈ fn) {candidate : Oid}
    (hcandidate : candidate ∈ ds.candidate) :
    ds.checkCandidate f candidate =
      { ds with candidateOk := f candidate, disambiguateFnUsed := true, candidateChecked := true } := by
  rw [DisambiguateState.checkCandidate]
  split_ifs with hchecked
  · obtain ⟨hused, hok, hall⟩ := h.checked hchecked
    rw [hall f hf candidate hcandidate]
    cases ds
    simp_all only
  · rfl

lemma Tracks.update (h : Tracks fn reported ds) (current : Oid) :
    ((ds.update current).2 = false ∧ Tracks fn (insert current reported) (ds.update current).1) ∨
      ((ds.update current).2 = true ∧ (ds.update current).1.ambiguous = true ∧ Clash fn (insert current reported)) := by
  rw [DisambiguateState.update]
  cases hcandidate : ds.candidate with
  | none =>
    obtain ⟨rfl, hused⟩ := h.empty hcandidate
    refine .inl ⟨rfl, ⟨h.fn_eq, h.ambiguous, ?_, ?_, ?_, ?_, ?_⟩⟩
    · simp
    · simp
    · simp
    · simp [hused]
    · intro hchecked
      rw [(h.checked hchecked).1] at hused
      cases hused
  | some candidate =>
    have hmem := h.mem candidate hcandidate
    dsimp only
    split_ifs with hsame
    · rw [hsame] at hmem
      rw [Set.insert_eq_of_mem hmem]
      exact .inl ⟨rfl, h⟩
    have hclash : (∀ f ∈ fn, f candidate = true ∧ f current = true) → Clash fn (insert current reported) := fun hboth =>
      ⟨candidate, Set.mem_insert_of_mem current hmem, current, Set.mem_insert current reported, Ne.symm hsame, hboth⟩
    cases hfn : ds.fn with
    | none =>
      refine .inr ⟨rfl, rfl, hclash fun f hf => ?_⟩
      rw [← h.fn_eq, hfn] at hf
      cases hf
    | some f =>
      have hf : f ∈ fn := by rw [← h.fn_eq, hfn, Option.mem_def]
      dsimp only
      rw [h.checkCandidate hf hcandidate]
      dsimp only
      by_cases hfail : f candidate = false
      · -- the candidate is discarded
        rw [if_pos (by simp [hfail])]
        refine .inl ⟨rfl, ⟨hfn.trans (Option.mem_def.mp hf).symm, h.ambiguous, ?_, ?_, ?_, ?_, ?_⟩⟩
        · simp
        · simp
        · simp
        · refine fun _ => ⟨f, hf, ?_⟩
          intro new hnew
          obtain rfl := Option.some.inj hnew
          refine ⟨⟨candidate, Set.mem_insert_of_mem _ hmem, hsame⟩, fun oid hoid hne => ?_⟩
          have hoid := hoid.resolve_left hne
          by_cases hold : oid = candidate
          · rw [hold, hfail]
          · exact h.others hf hcandidate hoid hold
        · simp
      rw [if_neg (by simpa using hfail)]
      by_cases hboth : f current = true
      · rw [if_pos hboth]
        refine .inr ⟨rfl, rfl, hclash fun f' hf' => ?_⟩
        obtain rfl := Option.mem_unique hf hf'
        exact ⟨by simpa using hfail, hboth⟩
      · -- the reported object is discarded
        rw [if_neg hboth]
        have hnew : ∀ new ∈ ds.candidate, new = candidate := fun new hnew => by
          rw [hcandidate] at hnew
          exact (Option.some.inj hnew).symm
        refine .inl ⟨rfl, ⟨hfn.trans (Option.mem_def.mp hf).symm, h.ambiguous, ?_, ?_, ?_, ?_, ?_⟩⟩
        · simp [hcandidate]
        · intro new hin
          rw [hnew new hin]
          exact Set.mem_insert_of_mem current hmem
        · simp
        · refine fun _ => ⟨f, hf, ?_⟩
          intro new hin
          rw [hnew new hin]
          refine ⟨⟨current, Set.mem_insert current reported, Ne.symm hsame⟩, fun oid hoid hne => ?_⟩
          obtain rfl | hoid := hoid
          · simpa using hboth
          · exact h.others hf hcandidate hoid hne
        · refine fun _ => ⟨rfl, by simpa using hfail, fun f' hf' new hin => ?_⟩
          rw [hnew new hin]
          obtain rfl := Option.mem_unique hf hf'
          simpa using hfail

lemma Tracks.updates (h : Tracks fn reported ds) (rest : List Oid) :
    (ds.updates rest).finish = resultOf fn (reported ∪ {oid | oid ∈ rest}) := by
  induction rest generalizing reported ds with
  | nil => simpa [DisambiguateState.updates] using h.finish
  | cons current rest ih =>
    have hset : reported ∪ {oid | oid ∈ current :: rest} = insert current reported ∪ {oid | oid ∈ rest} := by
      ext oid
      simp only [Set.mem_union, Set.mem_ofPred_eq, List.mem_cons, Set.mem_insert_iff]
      tauto
    rw [DisambiguateState.updates, hset]
    obtain ⟨hgo, htracks⟩ | ⟨hstop, hambiguous, hclash⟩ := h.update current
    · rw [if_neg (by simp [hgo])]
      exact ih htracks
    · rw [if_pos hstop, DisambiguateState.finish, if_pos hambiguous]
      exact (hclash.mono Set.subset_union_left).resultOf.symm

end Reports

/-- The result is that of the set of the reported objects, whatever the order and the number of the reports. -/
theorem finish_updates (fn : Option (Oid → Bool)) (reports : List Oid) :
    ((DisambiguateState.init fn).updates reports).finish = resultOf fn {oid | oid ∈ reports} := by
  rw [(tracks_init fn).updates, Set.empty_union]

/-- Both orders in which a commit and a blob with one prefix are found. -/
example : ((DisambiguateState.init (some (· == 1))).updates [2, 1, 2]).finish = .found 1 ∧
    ((DisambiguateState.init (some (· == 1))).updates [1, 2]).finish = .found 1 := by
  decide

end GitCore.Objects
