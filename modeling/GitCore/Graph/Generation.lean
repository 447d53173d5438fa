import GitCore.Graph.Format
import GitCore.Lib.Loop

/-!
# Generation numbers

`compute_reachable_generation_numbers` walks to the parents without a number, with a stack of its
own, and numbers a commit when all of its parents have numbers. The numbers are compared with the
ones that the history alone determines.
-/

namespace GitCore.Graph

def generationNumberV1Max : Nat := 0x3FFFFFFF

def generationNumberInfinity : Nat := 2 ^ 63 - 1

structure Repository where
  tree : ObjectId → ObjectId
  parents : ObjectId → List ObjectId
  date : ObjectId → Nat
  date_lt : ∀ oid, date oid < 2 ^ 64
  acyclic : WellFounded (fun p c => p ∈ parents c)

def Repository.commit (repo : Repository) (oid : ObjectId) : Commit where
  oid := oid
  tree := repo.tree oid
  parents := repo.parents oid
  date := repo.date oid
  date_lt := repo.date_lt oid

abbrev Slab := ObjectId → Nat

def Slab.set (slab : Slab) (oid : ObjectId) (gen : Nat) : Slab :=
  fun x => if x = oid then gen else slab x

@[simp] lemma Slab.set_self (slab : Slab) (oid : ObjectId) (gen : Nat) : slab.set oid gen oid = gen := if_pos rfl

lemma Slab.set_of_ne (slab : Slab) {oid x : ObjectId} (gen : Nat) (h : x ≠ oid) : slab.set oid gen x = slab x :=
  if_neg h

section Compute

/-- From the greatest number of the parents: version 1 is for levels, version 2 for corrected dates. -/
def computeGenerationFromMax (date maxGen generationVersion : Nat) : Nat :=
  if generationVersion = 1 then min maxGen (generationNumberV1Max - 1) + 1
  else ((if date ≠ 0 ∧ maxGen < date then date - 1 else maxGen) + 1) % 2 ^ 64

def maxGeneration (slab : Slab) (parents : List ObjectId) : Nat :=
  (parents.map slab).foldl max 0

structure ComputeState where
  commits : List ObjectId
  list : List ObjectId
  slab : Slab

variable (repo : Repository) (date : ObjectId → Nat) (generationVersion : Nat)

/-- One round of the walk; `date` are the dates as they were parsed. -/
def computeStep (s : ComputeState) : ComputeState ⊕ Slab :=
  match s.list with
  | current :: list =>
    match (repo.parents current).find? (fun p => s.slab p == 0) with
    | some p => .inl { s with list := p :: current :: list }
    | none => .inl { s with
        list := list
        slab := s.slab.set current
          (computeGenerationFromMax (date current) (maxGeneration s.slab (repo.parents current)) generationVersion) }
  | [] =>
    match s.commits with
    | [] => .inr s.slab
    | c :: commits =>
      if s.slab c ≠ 0 ∧ s.slab c ≠ generationNumberInfinity then .inl { s with commits := commits }
      else .inl { s with commits := commits, list := [c] }

def computeReachableGenerationNumbers (fuel : Nat) (commits : List ObjectId) (slab : Slab) : Option Slab :=
  runFor (computeStep repo date generationVersion) fuel { commits := commits, list := [], slab := slab }

end Compute

section Numbers

variable (repo : Repository) (generationVersion : Nat)

noncomputable def Repository.number : ObjectId → Nat :=
  repo.acyclic.fix fun c number => computeGenerationFromMax (repo.date c)
    (((repo.parents c).attach.map fun p => number p.1 p.2).foldl max 0) generationVersion

noncomputable abbrev Repository.level : ObjectId → Nat := repo.number 1

noncomputable abbrev Repository.correctedDate : ObjectId → Nat := repo.number 2

lemma Repository.number_eq (c : ObjectId) : repo.number generationVersion c =
    computeGenerationFromMax (repo.date c) (maxGeneration (repo.number generationVersion) (repo.parents c))
      generationVersion := by
  rw [Repository.number, WellFounded.fix_eq, ← Repository.number, maxGeneration]
  congr 2
  exact List.attach_map_val

lemma foldl_max_le {l : List Nat} {a b : Nat} (ha : a ≤ b) (h : ∀ x ∈ l, x ≤ b) : l.foldl max a ≤ b := by
  induction l generalizing a with
  | nil => exact ha
  | cons x l ih =>
    exact ih (max_le ha (h x List.mem_cons_self)) fun y hy => h y (List.mem_cons_of_mem _ hy)

lemma le_foldl_max_start (l : List Nat) (a : Nat) : a ≤ l.foldl max a := by
  induction l generalizing a with
  | nil => exact le_rfl
  | cons x l ih => exact (le_max_left a x).trans (ih _)

lemma le_foldl_max {l : List Nat} {x : Nat} (hx : x ∈ l) (a : Nat) : x ≤ l.foldl max a := by
  induction l generalizing a with
  | nil => cases hx
  | cons y l ih =>
    rcases List.mem_cons.mp hx with rfl | hx
    · exact (le_max_right a x).trans (le_foldl_max_start l _)
    · exact ih hx _

lemma le_maxGeneration {slab : Slab} {parents : List ObjectId} {p : ObjectId} (hp : p ∈ parents) :
    slab p ≤ maxGeneration slab parents :=
  le_foldl_max (List.mem_map_of_mem hp) 0

lemma maxGeneration_le {slab : Slab} {parents : List ObjectId} {b : Nat} (h : ∀ p ∈ parents, slab p ≤ b) :
    maxGeneration slab parents ≤ b :=
  foldl_max_le (Nat.zero_le _) fun x hx => by
    obtain ⟨p, hp, rfl⟩ := List.mem_map.mp hx
    exact h p hp

lemma maxGeneration_congr {slab slab' : Slab} {parents : List ObjectId} (h : ∀ p ∈ parents, slab p = slab' p) :
    maxGeneration slab parents = maxGeneration slab' parents := by
  rw [maxGeneration, maxGeneration, List.map_congr_left h]

variable {repo}

lemma Repository.level_eq (c : ObjectId) :
    repo.level c = min (maxGeneration repo.level (repo.parents c)) (generationNumberV1Max - 1) + 1 :=
  (repo.number_eq 1 c).trans (if_pos rfl)

lemma Repository.correctedDate_mod (c : ObjectId) : repo.correctedDate c =
    ((if repo.date c ≠ 0 ∧ maxGeneration repo.correctedDate (repo.parents c) < repo.date c then repo.date c - 1
      else maxGeneration repo.correctedDate (repo.parents c)) + 1) % 2 ^ 64 :=
  (repo.number_eq 2 c).trans (if_neg (by decide))

lemma Repository.level_pos (c : ObjectId) : 0 < repo.level c := by
  rw [Repository.level_eq]
  exact Nat.succ_pos _

lemma Repository.level_lt {c p : ObjectId} (hp : p ∈ repo.parents c) (hcap : repo.level p < generationNumberV1Max) :
    repo.level p < repo.level c := by
  rw [Repository.level_eq c]
  have := @le_maxGeneration repo.level _ _ hp
  omega

lemma Repository.correctedDate_le (hdate : ∀ oid, repo.date oid < 2 ^ 34)
    (hcap : ∀ oid, repo.level oid < generationNumberV1Max) (c : ObjectId) :
    repo.correctedDate c ≤ 2 ^ 34 + repo.level c := by
  induction c using repo.acyclic.induction with
  | _ c ih =>
    have hmax : maxGeneration repo.correctedDate (repo.parents c) ≤ 2 ^ 34 + (repo.level c - 1) :=
      maxGeneration_le fun p hp => by
        have := ih p hp
        have := Repository.level_lt hp (hcap p)
        omega
    have hpos := repo.level_pos c
    have hlt := hcap c
    have hd := hdate c
    rw [generationNumberV1Max] at hlt
    rw [Repository.correctedDate_mod]
    refine (Nat.mod_le _ _).trans ?_
    split_ifs <;> omega

lemma Repository.correctedDate_eq (hdate : ∀ oid, repo.date oid < 2 ^ 34)
    (hcap : ∀ oid, repo.level oid < generationNumberV1Max) (c : ObjectId) :
    repo.correctedDate c = max (repo.date c) (maxGeneration repo.correctedDate (repo.parents c) + 1) := by
  have hmax : maxGeneration repo.correctedDate (repo.parents c) ≤ 2 ^ 34 + generationNumberV1Max :=
    maxGeneration_le fun p _ => (Repository.correctedDate_le hdate hcap p).trans (by have := hcap p; omega)
  have hd := hdate c
  rw [generationNumberV1Max] at hmax
  rw [Repository.correctedDate_mod, Nat.mod_eq_of_lt (by split_ifs <;> omega)]
  split_ifs <;> omega

lemma Repository.correctedDate_lt (hdate : ∀ oid, repo.date oid < 2 ^ 34)
    (hcap : ∀ oid, repo.level oid < generationNumberV1Max) {c p : ObjectId} (hp : p ∈ repo.parents c) :
    repo.correctedDate p < repo.correctedDate c := by
  rw [Repository.correctedDate_eq hdate hcap c]
  have := @le_maxGeneration repo.correctedDate _ _ hp
  omega

end Numbers

section Walk

/-- Numbers for a set of commits that has the parents of its commits; none of them is zero. -/
structure IsNumbering (repo : Repository) (date : ObjectId → Nat) (generationVersion : Nat) (commits : Set ObjectId)
    (num : Slab) : Prop where
  closed : ∀ c ∈ commits, ∀ p ∈ repo.parents c, p ∈ commits
  eq : ∀ c ∈ commits, num c =
    computeGenerationFromMax (date c) (maxGeneration num (repo.parents c)) generationVersion
  ne_zero : ∀ c ∈ commits, num c ≠ 0

def Agrees (commits : Set ObjectId) (num slab : Slab) : Prop :=
  ∀ c ∈ commits, slab c = 0 ∨ slab c = num c

def Keeps (commits : Set ObjectId) (slab slab' : Slab) : Prop :=
  ∀ c ∈ commits, slab c ≠ 0 → slab' c = slab c

variable {repo : Repository} {date : ObjectId → Nat} {generationVersion : Nat} {commits : Set ObjectId} {num : Slab}

lemma Keeps.trans {slab₁ slab₂ slab₃ : Slab} (h : Keeps commits slab₁ slab₂) (h' : Keeps commits slab₂ slab₃) :
    Keeps commits slab₁ slab₃ := by
  intro c hc hne
  rw [h' c hc (by rw [h c hc hne]; exact hne), h c hc hne]

lemma card_zero_lt {slab slab' : Slab} {parents : List ObjectId} {p : ObjectId} (hp : p ∈ parents) (hzero : slab p = 0)
    (hset : slab' p ≠ 0) (hkeep : ∀ x ∈ parents, slab x ≠ 0 → slab' x ≠ 0) :
    (parents.toFinset.filter fun x => slab' x = 0).card < (parents.toFinset.filter fun x => slab x = 0).card := by
  refine Finset.card_lt_card ((Finset.ssubset_iff_of_subset fun x hx => ?_).mpr ⟨p, ?_, ?_⟩)
  · rw [Finset.mem_filter, List.mem_toFinset] at hx ⊢
    exact ⟨hx.1, by_contra fun hne => hkeep x hx.1 hne hx.2⟩
  · rw [Finset.mem_filter, List.mem_toFinset]
    exact ⟨hp, hzero⟩
  · rw [Finset.mem_filter]
    exact fun h => hset h.2

lemma computeStep_commit (hnum : IsNumbering repo date generationVersion commits num) (c : ObjectId) (hc : c ∈ commits)
    (todo list : List ObjectId) (slab : Slab) (hagrees : Agrees commits num slab) :
    ∃ slab', LoopRun (computeStep repo date generationVersion) ⟨todo, c :: list, slab⟩ ⟨todo, list, slab'⟩ ∧
      Agrees commits num slab' ∧ Keeps commits slab slab' ∧ slab' c = num c := by
  -- The parents come first; among them the number of those that are left decreases.
  induction c using repo.acyclic.induction generalizing list slab with
  | _ c ih =>
    induction hn : ((repo.parents c).toFinset.filter fun x => slab x = 0).card using Nat.strong_induction_on
      generalizing slab with
    | _ n ihParents =>
      cases hfind : (repo.parents c).find? (fun p => slab p == 0) with
      | none =>
        have hknown : ∀ p ∈ repo.parents c, slab p = num p := by
          intro p hp
          rw [List.find?_eq_none] at hfind
          exact (hagrees p (hnum.closed c hc p hp)).resolve_left fun hzero => hfind p hp (beq_iff_eq.mpr hzero)
        have hvalue : computeGenerationFromMax (date c) (maxGeneration slab (repo.parents c)) generationVersion = num c := by
          rw [maxGeneration_congr hknown, ← hnum.eq c hc]
        refine ⟨slab.set c (num c), .single ?_, fun x hx => ?_, fun x hx hne => ?_, slab.set_self c _⟩
        · rw [computeStep]
          dsimp only
          rw [hfind, hvalue]
        · by_cases hxc : x = c
          · exact .inr (by rw [hxc, slab.set_self])
          · rw [slab.set_of_ne _ hxc]
            exact hagrees x hx
        · by_cases hxc : x = c
          · rw [hxc, slab.set_self, ← hxc]
            exact ((hagrees x hx).resolve_left hne).symm
          · rw [slab.set_of_ne _ hxc]
      | some p =>
        have hp : p ∈ repo.parents c := List.mem_of_find?_eq_some hfind
        have hpc := hnum.closed c hc p hp
        have hzero : slab p = 0 := by simpa using List.find?_some hfind
        obtain ⟨slab₁, hrun₁, hagrees₁, hkeep₁, hnum₁⟩ := ih p hp hpc (c :: list) slab hagrees
        have hset : slab₁ p ≠ 0 := by
          rw [hnum₁]
          exact hnum.ne_zero p hpc
        have hfewer := card_zero_lt hp hzero hset fun x hx hne => by
          rw [hkeep₁ x (hnum.closed c hc x hx) hne]
          exact hne
        obtain ⟨slab₂, hrun₂, hagrees₂, hkeep₂, hnum₂⟩ := ihParents _ (hn ▸ hfewer) slab₁ hagrees₁ rfl
        refine ⟨slab₂, .head ?_ (hrun₁.trans hrun₂), hagrees₂, hkeep₁.trans hkeep₂, hnum₂⟩
        rw [computeStep]
        dsimp only
        rw [hfind]

theorem computeReachableGenerationNumbers_spec (hnum : IsNumbering repo date generationVersion commits num)
    (todo : List ObjectId) (htodo : ∀ c ∈ todo, c ∈ commits) (slab : Slab) (hagrees : Agrees commits num slab) :
    ∃ slab', (∃ fuel, computeReachableGenerationNumbers repo date generationVersion fuel todo slab = some slab') ∧
      Agrees commits num slab' ∧ ∀ c ∈ todo, slab' c = num c := by
  have hwalk : ∃ slab', LoopRun (computeStep repo date generationVersion) ⟨todo, [], slab⟩ ⟨[], [], slab'⟩ ∧
      Agrees commits num slab' ∧ Keeps commits slab slab' ∧ ∀ c ∈ todo, slab' c = num c := by
    induction todo generalizing slab with
    | nil => exact ⟨slab, .refl, hagrees, fun _ _ _ => rfl, fun c hc => absurd hc List.not_mem_nil⟩
    | cons c todo ih =>
      have hc := htodo c List.mem_cons_self
      by_cases hskip : slab c ≠ 0 ∧ slab c ≠ generationNumberInfinity
      · obtain ⟨slab', hrun, hagrees', hkeep, hdone⟩ :=
          ih (fun d hd => htodo d (List.mem_cons_of_mem _ hd)) slab hagrees
        refine ⟨slab', .head ?_ hrun, hagrees', hkeep, List.forall_mem_cons.mpr ⟨?_, hdone⟩⟩
        · rw [computeStep]
          dsimp only
          rw [if_pos hskip]
        · rw [hkeep c hc hskip.1]
          exact (hagrees c hc).resolve_left hskip.1
      · obtain ⟨slab₁, hrun₁, hagrees₁, hkeep₁, hnum₁⟩ := computeStep_commit hnum c hc todo [] slab hagrees
        obtain ⟨slab', hrun, hagrees', hkeep, hdone⟩ :=
          ih (fun d hd => htodo d (List.mem_cons_of_mem _ hd)) slab₁ hagrees₁
        refine ⟨slab', .head ?_ (hrun₁.trans hrun), hagrees', hkeep₁.trans hkeep, List.forall_mem_cons.mpr ⟨?_, hdone⟩⟩
        · rw [computeStep]
          dsimp only
          rw [if_neg hskip]
        · rw [hkeep c hc (by rw [hnum₁]; exact hnum.ne_zero c hc), hnum₁]
  obtain ⟨slab', hrun, hagrees', -, hdone⟩ := hwalk
  exact ⟨slab', runFor_of_run hrun rfl, hagrees', hdone⟩

lemma computeReachableGenerationNumbers_eq (hnum : IsNumbering repo date generationVersion commits num)
    {todo : List ObjectId} (htodo : ∀ c ∈ todo, c ∈ commits) {slab slab' : Slab} (hagrees : Agrees commits num slab)
    {fuel : Nat} (h : computeReachableGenerationNumbers repo date generationVersion fuel todo slab = some slab') :
    ∀ c ∈ todo, slab' c = num c := by
  obtain ⟨found, ⟨fuel', hfuel'⟩, -, hdone⟩ := computeReachableGenerationNumbers_spec hnum todo htodo slab hagrees
  rw [runFor_unique h hfuel']
  exact hdone

end Walk

end GitCore.Graph
