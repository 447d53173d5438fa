import GitCore.Graph.Layers

/-!
# Runs of writes

`write_commit_graph` with its split strategies: which layers of the loaded chain stay, which are
merged into the new layer, whether the new layer gets corrected dates, and from which numbers they
are computed.
-/

namespace GitCore.Graph

inductive SplitFlags
  | unspecified
  | mergeProhibited
  | replace
  deriving DecidableEq

/-- One call of `write_commit_graph`. The names are those that `close_reachable` leaves. `filled`
are the commits of the chain that have been filled in from it, and `levelKnown` those whose level
was noted at that time. -/
structure WriteRequest where
  split : Bool
  splitFlags : SplitFlags
  sizeMultiple : Nat
  maxCommits : Nat
  generationVersion : Nat
  oids : List ObjectId
  filled : ObjectId → Bool
  levelKnown : ObjectId → Bool

variable {rawsz : Nat}

def InChain (layers : List (LayerInput rawsz)) (oid : ObjectId) : Prop :=
  ∃ l ∈ layers, oid ∈ l.oids

instance inChainDecidable (layers : List (LayerInput rawsz)) (oid : ObjectId) : Decidable (InChain layers oid) :=
  inferInstanceAs (Decidable (∃ l ∈ layers, oid ∈ l.oids))

section Strategy

def mergeLayers (sizeMult maxCommits : Nat) :
    Nat → List (LayerInput rawsz) → List (LayerInput rawsz) × List (LayerInput rawsz)
  | _, [] => ([], [])
  | numCommits, g :: base =>
    if g.commits.length ≤ sizeMult * numCommits ∨ (maxCommits ≠ 0 ∧ maxCommits < numCommits) then
      (g :: (mergeLayers sizeMult maxCommits (numCommits + g.commits.length) base).1,
        (mergeLayers sizeMult maxCommits (numCommits + g.commits.length) base).2)
    else ([], g :: base)

/-- `split_graph_merge_strategy`; without `--split` the new file replaces the chain. -/
def splitGraphMergeStrategy (req : WriteRequest) (numCommits : Nat) (layers : List (LayerInput rawsz)) :
    List (LayerInput rawsz) × List (LayerInput rawsz) :=
  if req.split then
    match req.splitFlags with
    | .replace => ([], [])
    | .mergeProhibited => ([], layers)
    | .unspecified =>
      mergeLayers (if req.sizeMultiple ≠ 0 then req.sizeMultiple else 2) req.maxCommits numCommits layers
  else ([], [])

def skipsChain (req : WriteRequest) : Bool :=
  req.split && req.splitFlags != .replace

def copyOidsToCommits (req : WriteRequest) (layers : List (LayerInput rawsz)) : List ObjectId :=
  req.oids.dedup.filter fun oid => !(skipsChain req && decide (InChain layers oid))

def mergedLayers (req : WriteRequest) (layers : List (LayerInput rawsz)) : List (LayerInput rawsz) :=
  (splitGraphMergeStrategy req (copyOidsToCommits req layers).length layers).1

def keptLayers (req : WriteRequest) (layers : List (LayerInput rawsz)) : List (LayerInput rawsz) :=
  (splitGraphMergeStrategy req (copyOidsToCommits req layers).length layers).2

def writeGenerationData (req : WriteRequest) (layers : List (LayerInput rawsz)) : Bool :=
  match keptLayers req layers with
  | [] => decide (req.generationVersion = 2)
  | top :: _ => decide (2 ≤ req.generationVersion) && top.writeGenerationData

end Strategy

section Numbers

def storedNumber (layers : List (LayerInput rawsz)) (dates : Bool) (oid : ObjectId) : Nat :=
  match layers.find? (fun l => decide (oid ∈ l.oids)) with
  | some l => l.number dates oid
  | none => 0

def trustGenerationNumbers (req : WriteRequest) (layers : List (LayerInput rawsz)) : Bool :=
  layers.isEmpty || readsGenerationData req.generationVersion layers

def initialLevels (req : WriteRequest) (layers : List (LayerInput rawsz)) : Slab :=
  fun oid => if req.levelKnown oid then storedNumber layers false oid else 0

/-- The generation slab when `compute_generation_numbers` starts; only the commits of the new
layer are reset. -/
def initialGenerations (req : WriteRequest) (layers : List (LayerInput rawsz)) (commits : List ObjectId) : Slab :=
  fun oid =>
    if !trustGenerationNumbers req layers && decide (oid ∈ commits) then 0
    else if req.filled oid then storedNumber layers (readsGenerationData req.generationVersion layers) oid
    else 0

def parsedDate (repo : Repository) (req : WriteRequest) (oid : ObjectId) : Nat :=
  if req.filled oid then repo.date oid % 2 ^ 34 else repo.date oid

end Numbers

section Write

/-- What the callers and `close_reachable` leave: the parents of the commits that the chain does not have. -/
structure IsRequest (repo : Repository) (layers : List (LayerInput rawsz)) (req : WriteRequest) : Prop where
  version : req.generationVersion = 1 ∨ req.generationVersion = 2
  closed : ∀ oid ∈ req.oids, (skipsChain req = true → ¬ InChain layers oid) → ∀ p ∈ repo.parents oid, p ∈ req.oids

structure IsNewLayer (repo : Repository) (layers : List (LayerInput rawsz)) (req : WriteRequest) (l : LayerInput rawsz) :
    Prop where
  mem_oids : ∀ oid, oid ∈ l.oids ↔ oid ∈ copyOidsToCommits req layers ∨ InChain (mergedLayers req layers) oid
  commits : ∀ c ∈ l.commits, c = repo.commit c.oid
  dates : l.writeGenerationData = writeGenerationData req layers
  version : l.generationVersion = req.generationVersion
  level : ∃ fuel, (computeReachableGenerationNumbers repo (parsedDate repo req) 1 fuel l.oids
    (initialLevels req layers)).map l.oids.map = some (l.oids.map l.topoLevel)
  generation : writeGenerationData req layers = true →
    ∃ fuel, (computeReachableGenerationNumbers repo (parsedDate repo req) 2 fuel l.oids
      (initialGenerations req layers l.oids)).map l.oids.map = some (l.oids.map l.generation)

/-- A write; without commits nothing is written unless the chain is to be replaced. -/
inductive WriteCommitGraph (repo : Repository) (req : WriteRequest) :
    List (LayerInput rawsz) → List (LayerInput rawsz) → Prop
  | nothing {layers : List (LayerInput rawsz)} (empty : copyOidsToCommits req layers = [])
      (keep : ¬ (req.split = true ∧ req.splitFlags = .replace)) : WriteCommitGraph repo req layers layers
  | layer {layers : List (LayerInput rawsz)} {l : LayerInput rawsz} (request : IsRequest repo layers req)
      (new : IsNewLayer repo layers req l) : WriteCommitGraph repo req layers (l :: keptLayers req layers)

/-- The new layer gets dates on top of layers with dates, while the loaded chain has layers without. -/
def KeepsMixedBase (req : WriteRequest) (layers : List (LayerInput rawsz)) : Prop :=
  writeGenerationData req layers = true ∧ keptLayers req layers ≠ [] ∧
    readsGenerationData req.generationVersion layers = false

end Write

section Loaded

def loadedGeneration (chain : List CommitGraph) (oid : ObjectId) : Option Nat :=
  (searchCommitPosInGraph oid chain).bind fun pos => (fillCommitInGraph chain pos).map FilledCommit.generation

/-- Every commit has a greater number than its parents, and all numbers are of one kind. -/
structure GenerationsIncrease (repo : Repository) (chain : List CommitGraph) : Prop where
  increase : ∀ g ∈ chain, ∀ oid ∈ g.chunkOidLookup, ∃ gen, loadedGeneration chain oid = some gen ∧
    ∀ p ∈ repo.parents oid, ∃ genParent, loadedGeneration chain p = some genParent ∧ genParent < gen
  uniform : (∀ g ∈ chain, ∀ oid ∈ g.chunkOidLookup, loadedGeneration chain oid = some (repo.correctedDate oid)) ∨
    ∀ g ∈ chain, ∀ oid ∈ g.chunkOidLookup, loadedGeneration chain oid = some (repo.level oid)

end Loaded

end GitCore.Graph

/-!
# Generation numbers over a run of writes

Unless a layer with dates is put on layers with dates while the loaded chain lacks some, every
layer has the levels and the corrected dates that the history determines.
-/

namespace GitCore.Graph

variable {rawsz : Nat} {repo : Repository} {layers : List (LayerInput rawsz)} {req : WriteRequest}

section Strategy

lemma mergeLayers_append (sizeMult maxCommits numCommits : Nat) (layers : List (LayerInput rawsz)) :
    (mergeLayers sizeMult maxCommits numCommits layers).1 ++ (mergeLayers sizeMult maxCommits numCommits layers).2 =
      layers := by
  induction layers generalizing numCommits with
  | nil => rfl
  | cons g base ih =>
    rw [mergeLayers]
    split_ifs
    · rw [List.cons_append, ih]
    · exact rfl

lemma merged_append_kept (layers : List (LayerInput rawsz)) (h : skipsChain req = true) : mergedLayers req layers ++ keptLayers req layers = layers := by
  rw [skipsChain, Bool.and_eq_true, bne_iff_ne] at h
  rw [mergedLayers, keptLayers, splitGraphMergeStrategy, if_pos h.1]
  cases hflags : req.splitFlags with
  | unspecified => exact mergeLayers_append _ _ _ _
  | mergeProhibited => exact rfl
  | replace => exact absurd hflags h.2

lemma merged_kept_nil (h : ¬ skipsChain req = true) : mergedLayers req layers = [] ∧ keptLayers req layers = [] := by
  rw [skipsChain, Bool.and_eq_true, bne_iff_ne, not_and, not_not] at h
  have hnil : splitGraphMergeStrategy req (copyOidsToCommits req layers).length layers = ([], []) := by
    rw [splitGraphMergeStrategy]
    by_cases hsplit : req.split = true
    · rw [if_pos hsplit, h hsplit]
    · rw [if_neg hsplit]
  rw [mergedLayers, keptLayers, hnil]
  exact ⟨rfl, rfl⟩

lemma mem_copyOids {oid : ObjectId} : oid ∈ copyOidsToCommits req layers ↔
    oid ∈ req.oids ∧ (skipsChain req = true → ¬ InChain layers oid) := by
  rw [copyOidsToCommits, List.mem_filter, List.mem_dedup]
  cases skipsChain req <;> simp

end Strategy

section Distribution

variable {xs ys : List (LayerInput rawsz)}

lemma inChain_append {oid : ObjectId} :
    InChain (xs ++ ys) oid ↔ InChain xs oid ∨ InChain ys oid := by
  simp only [InChain, List.mem_append, or_and_right, exists_or]

lemma inChain_cons {l : LayerInput rawsz} {below : List (LayerInput rawsz)} {oid : ObjectId} :
    InChain (l :: below) oid ↔ oid ∈ l.oids ∨ InChain below oid := by
  simp only [InChain, List.mem_cons, or_and_right, exists_or, exists_eq_left]

lemma IsDistribution.suffix (h : IsDistribution (xs ++ ys)) : IsDistribution ys := by
  induction xs with
  | nil => exact h
  | cons l xs ih => exact ih h.2.2

lemma IsDistribution.disjoint (h : IsDistribution (xs ++ ys)) {oid : ObjectId}
    (hx : InChain xs oid) (hy : InChain ys oid) : False := by
  induction xs with
  | nil =>
    obtain ⟨l, hl, -⟩ := hx
    cases hl
  | cons l xs ih =>
    rcases inChain_cons.mp hx with hl | hx
    · obtain ⟨b, hb, hoid⟩ := hy
      exact h.1 oid hl b (List.mem_append_right _ hb) hoid
    · exact ih h.2.2 hx

structure IsSound (repo : Repository) (layers : List (LayerInput rawsz)) : Prop where
  distribution : IsDistribution layers
  commits : ∀ l ∈ layers, ∀ c ∈ l.commits, c = repo.commit c.oid
  level : ∀ l ∈ layers, ∀ oid ∈ l.oids, l.topoLevel oid = repo.level oid
  date : ∀ l ∈ layers, l.writeGenerationData = true → ∀ oid ∈ l.oids, l.generation oid = repo.correctedDate oid

lemma closed_of_distribution (hdist : IsDistribution layers) (hcommits : ∀ l ∈ layers, ∀ c ∈ l.commits, c = repo.commit c.oid)
    {oid p : ObjectId} (hoid : InChain layers oid) (hp : p ∈ repo.parents oid) : InChain layers p := by
  induction layers with
  | nil =>
    obtain ⟨l, hl, -⟩ := hoid
    cases hl
  | cons l below ih =>
    rcases inChain_cons.mp hoid with hl | hbelow
    · obtain ⟨c, hc, rfl⟩ := List.mem_map.mp hl
      refine hdist.2.1 c hc p ?_
      rw [hcommits l List.mem_cons_self c hc]
      exact hp
    · exact inChain_cons.mpr (.inr (ih hdist.2.2 (fun b hb => hcommits b (List.mem_cons_of_mem _ hb)) hbelow))

lemma IsSound.suffix (h : IsSound repo (xs ++ ys)) : IsSound repo ys where
  distribution := h.distribution.suffix
  commits l hl := h.commits l (List.mem_append_right _ hl)
  level l hl := h.level l (List.mem_append_right _ hl)
  date l hl := h.date l (List.mem_append_right _ hl)

lemma isSound_kept (h : IsSound repo layers) : IsSound repo (keptLayers req layers) := by
  by_cases hskip : skipsChain req = true
  · have happend := merged_append_kept layers hskip
    rw [← happend] at h
    exact h.suffix
  · rw [(merged_kept_nil hskip).2]
    exact ⟨trivial, by simp, by simp, by simp⟩

lemma IsNewLayer.distribution (h : IsSound repo layers) {l : LayerInput rawsz} (hreq : IsRequest repo layers req)
    (hnew : IsNewLayer repo layers req l) : IsDistribution (l :: keptLayers req layers) := by
  refine ⟨fun oid hoid b hb hin => ?_, fun c hc p hp => ?_, (isSound_kept h).distribution⟩
  · by_cases hskip : skipsChain req = true
    · have happend := merged_append_kept layers hskip
      rcases (hnew.mem_oids oid).mp hoid with hcopy | hmerged
      · refine (mem_copyOids.mp hcopy).2 hskip ?_
        rw [← happend]
        exact inChain_append.mpr (.inr ⟨b, hb, hin⟩)
      · have hdist := h.distribution
        rw [← happend] at hdist
        exact hdist.disjoint hmerged ⟨b, hb, hin⟩
    · rw [(merged_kept_nil hskip).2] at hb
      cases hb
  · have hp' : p ∈ repo.parents c.oid := by
      rw [hnew.commits c hc] at hp
      exact hp
    have hgoal : p ∈ l.oids ∨ InChain (keptLayers req layers) p := by
      rcases (hnew.mem_oids c.oid).mp (List.mem_map_of_mem hc) with hcopy | hmerged
      · obtain ⟨hoids, hout⟩ := mem_copyOids.mp hcopy
        have hpoids := hreq.closed c.oid hoids hout p hp'
        by_cases hskip : skipsChain req = true
        · by_cases hin : InChain layers p
          · rw [← merged_append_kept layers hskip, inChain_append] at hin
            exact hin.imp_left fun hm => (hnew.mem_oids p).mpr (.inr hm)
          · exact .inl ((hnew.mem_oids p).mpr (.inl (mem_copyOids.mpr ⟨hpoids, fun _ => hin⟩)))
        · exact .inl ((hnew.mem_oids p).mpr (.inl (mem_copyOids.mpr ⟨hpoids, fun hs => absurd hs hskip⟩)))
      · by_cases hskip : skipsChain req = true
        · have hin : InChain layers c.oid := by
            rw [← merged_append_kept layers hskip]
            exact inChain_append.mpr (.inl hmerged)
          have := closed_of_distribution h.distribution h.commits hin hp'
          rw [← merged_append_kept layers hskip, inChain_append] at this
          exact this.imp_left fun hm => (hnew.mem_oids p).mpr (.inr hm)
        · rw [(merged_kept_nil hskip).1] at hmerged
          obtain ⟨b, hb, -⟩ := hmerged
          cases hb
    rcases hgoal with hl | ⟨b, hb, hoid⟩
    · exact ⟨l, List.mem_cons_self, hl⟩
    · exact ⟨b, List.mem_cons_of_mem _ hb, hoid⟩

end Distribution

section Step

lemma storedNumber_cases (dates : Bool) (oid : ObjectId) :
    storedNumber layers dates oid = 0 ∨ ∃ l ∈ layers, oid ∈ l.oids ∧ storedNumber layers dates oid = l.number dates oid := by
  rw [storedNumber]
  cases hfind : layers.find? (fun l => decide (oid ∈ l.oids)) with
  | none => exact .inl rfl
  | some l =>
    have hmem : oid ∈ l.oids := by simpa using List.find?_some hfind
    exact .inr ⟨l, List.mem_of_find?_eq_some hfind, hmem, rfl⟩

variable (hdate : ∀ oid, repo.date oid < 2 ^ 34) (hcap : ∀ oid, repo.level oid < generationNumberV1Max)
include hdate

lemma parsedDate_eq (oid : ObjectId) : parsedDate repo req oid = repo.date oid := by
  rw [parsedDate, Nat.mod_eq_of_lt (hdate oid), ite_self]

lemma isNumbering_level {commits : Set ObjectId} (hclosed : ∀ c ∈ commits, ∀ p ∈ repo.parents c, p ∈ commits) :
    IsNumbering repo (parsedDate repo req) 1 commits repo.level where
  closed := hclosed
  eq c _ := by rw [parsedDate_eq hdate, ← repo.number_eq 1 c]
  ne_zero c _ := (repo.level_pos c).ne'

include hcap

lemma isNumbering_date {commits : Set ObjectId} (hclosed : ∀ c ∈ commits, ∀ p ∈ repo.parents c, p ∈ commits) :
    IsNumbering repo (parsedDate repo req) 2 commits repo.correctedDate where
  closed := hclosed
  eq c _ := by rw [parsedDate_eq hdate, ← repo.number_eq 2 c]
  ne_zero c _ := by
    rw [Repository.correctedDate_eq hdate hcap c]
    omega

theorem WriteCommitGraph.isSound {layers' : List (LayerInput rawsz)} (h : IsSound repo layers)
    (hwrite : WriteCommitGraph repo req layers layers') (hmixed : ¬ KeepsMixedBase req layers) : IsSound repo layers' := by
  cases hwrite with
  | nothing => exact h
  | @layer l request new =>
    have hkept : IsSound repo (keptLayers req layers) := isSound_kept h
    have hdist := new.distribution h request
    have hcommits : ∀ b ∈ l :: keptLayers req layers, ∀ c ∈ b.commits, c = repo.commit c.oid :=
      List.forall_mem_cons.mpr ⟨new.commits, hkept.commits⟩
    have hclosed : ∀ c ∈ {oid | InChain (l :: keptLayers req layers) oid}, ∀ p ∈ repo.parents c,
        p ∈ {oid | InChain (l :: keptLayers req layers) oid} :=
      fun c hc p hp => closed_of_distribution hdist hcommits hc hp
    have htodo : ∀ c ∈ l.oids, c ∈ {oid | InChain (l :: keptLayers req layers) oid} :=
      fun c hc => inChain_cons.mpr (.inl hc)
    have hlevel : ∀ oid ∈ l.oids, l.topoLevel oid = repo.level oid := by
      obtain ⟨fuel, hfuel⟩ := new.level
      obtain ⟨slab, hslab, hmap⟩ := Option.map_eq_some_iff.mp hfuel
      have hagrees : Agrees {oid | InChain (l :: keptLayers req layers) oid} repo.level (initialLevels req layers) := by
        intro c _
        rw [initialLevels]
        split_ifs
        · refine (storedNumber_cases false c).imp_right fun ⟨b, hb, hc, heq⟩ => ?_
          rw [heq]
          exact h.level b hb c hc
        · exact .inl rfl
      have := computeReachableGenerationNumbers_eq (isNumbering_level hdate hclosed) htodo hagrees hslab
      intro oid hoid
      rw [← this oid hoid]
      exact (List.map_inj_left.mp hmap oid hoid).symm
    have hdates : l.writeGenerationData = true → ∀ oid ∈ l.oids, l.generation oid = repo.correctedDate oid := by
      intro hdates
      rw [new.dates] at hdates
      obtain ⟨fuel, hfuel⟩ := new.generation hdates
      obtain ⟨slab, hslab, hmap⟩ := Option.map_eq_some_iff.mp hfuel
      have hagrees : Agrees {oid | InChain (l :: keptLayers req layers) oid} repo.correctedDate
          (initialGenerations req layers l.oids) := by
        intro c hc
        rw [initialGenerations]
        -- Either all layers have dates, or nothing is kept and all numbers are computed anew.
        cases htrust : trustGenerationNumbers req layers with
        | true =>
          rw [Bool.not_true, Bool.false_and, if_neg Bool.false_ne_true]
          split_ifs
          · refine (storedNumber_cases _ c).imp_right fun ⟨b, hb, hcb, heq⟩ => ?_
            have hreads : readsGenerationData req.generationVersion layers = true := by
              rw [trustGenerationNumbers, Bool.or_eq_true, List.isEmpty_iff] at htrust
              exact htrust.resolve_left (List.ne_nil_of_mem hb)
            rw [heq, hreads]
            rw [readsGenerationData, Bool.and_eq_true, List.all_eq_true] at hreads
            exact h.date b hb (hreads.2 b hb) c hcb
          · exact .inl rfl
        | false =>
          rw [trustGenerationNumbers, Bool.or_eq_false_iff] at htrust
          have hnil : keptLayers req layers = [] := by_contra fun hne => hmixed ⟨hdates, hne, htrust.2⟩
          have hmem : c ∈ l.oids := by
            have hc' : InChain (l :: keptLayers req layers) c := hc
            rw [hnil, inChain_cons] at hc'
            refine hc'.resolve_right ?_
            rintro ⟨b, hb, -⟩
            cases hb
          exact .inl (if_pos (by simp [hmem]))
      have := computeReachableGenerationNumbers_eq (isNumbering_date hdate hcap hclosed) htodo hagrees hslab
      intro oid hoid
      rw [← this oid hoid]
      exact (List.map_inj_left.mp hmap oid hoid).symm
    exact ⟨hdist, hcommits, List.forall_mem_cons.mpr ⟨hlevel, hkept.level⟩, List.forall_mem_cons.mpr ⟨hdates, hkept.date⟩⟩

end Step

section Run

def WithinLimits (layers : List (LayerInput rawsz)) : Prop :=
  totalLayerCommits layers ≤ graphParentNone ∧ ∀ l ∈ layers, countExtraEdges l.commits < 2 ^ 31

def AnyWrite (repo : Repository) (layers layers' : List (LayerInput rawsz)) : Prop :=
  ∃ req, WriteCommitGraph repo req layers layers'

def LevelsBelowCap (repo : Repository) : Prop :=
  ∀ oid, repo.level oid < generationNumberV1Max

def UnmixedWrite (repo : Repository) (layers layers' : List (LayerInput rawsz)) : Prop :=
  ∃ req, WriteCommitGraph repo req layers layers' ∧ ¬ KeepsMixedBase req layers ∧ WithinLimits layers'

lemma loadedGeneration_written (hdist : IsDistribution layers) (hlimits : WithinLimits layers) :
    ∃ files, writeLayers layers = some files ∧ ∀ version,
      (loadCommitGraphChain version files).map (·.chunkOidLookup) = layers.map LayerInput.oids ∧
      ∀ l ∈ layers, ∀ oid ∈ l.oids, loadedGeneration (loadCommitGraphChain version files) oid =
        some (l.number (readsGenerationData version layers) oid) := by
  obtain ⟨files, hfiles, hforall, hreads⟩ := writeLayers_reads hdist hlimits.1 hlimits.2
  refine ⟨files, hfiles, fun version => ?_⟩
  rw [loadCommitGraphChain_eq, all_isSome_eq hforall]
  refine ⟨tables_parseWith hforall _ _, fun l hl oid hoid => ?_⟩
  obtain ⟨c, hc, rfl⟩ := List.mem_map.mp hoid
  have hdates : (readsGenerationData version layers = true) → 2 ≤ version ∧ ∀ l ∈ layers, l.writeGenerationData = true :=
    fun h => by
      rw [readsGenerationData, Bool.and_eq_true, decide_eq_true_eq, List.all_eq_true] at h
      exact h
  obtain ⟨pos, -, hload, -, hfill⟩ := hreads version _ hdates l hl c hc
  have hsearch := searchCommitPosInGraph_of_load
    (isChain_parseWith hforall hdist version (readsGenerationData version layers)) hload
  rw [loadedGeneration, ← readsGenerationData, hsearch, Option.bind_some, hfill]
  exact rfl

lemma IsSound.generationsIncrease (hdate : ∀ oid, repo.date oid < 2 ^ 34)
    (hcap : ∀ oid, repo.level oid < generationNumberV1Max) (h : IsSound repo layers) (hlimits : WithinLimits layers) :
    ∃ files, writeLayers layers = some files ∧ ∀ version, GenerationsIncrease repo (loadCommitGraphChain version files) := by
  obtain ⟨files, hfiles, hloaded⟩ := loadedGeneration_written h.distribution hlimits
  refine ⟨files, hfiles, fun version => ?_⟩
  obtain ⟨htables, hnumber⟩ := hloaded version
  have hlayer : ∀ g ∈ loadCommitGraphChain version files, ∀ oid ∈ g.chunkOidLookup, InChain layers oid := by
    intro g hg oid hoid
    have hmem : g.chunkOidLookup ∈ layers.map LayerInput.oids := by
      rw [← htables]
      exact List.mem_map_of_mem hg
    obtain ⟨l, hl, heq⟩ := List.mem_map.mp hmem
    exact ⟨l, hl, heq ▸ hoid⟩
  -- The numbers of the whole chain are those of one kind.
  obtain ⟨num, hnum, hlt, hkind⟩ : ∃ num : ObjectId → Nat,
      (∀ oid, InChain layers oid → loadedGeneration (loadCommitGraphChain version files) oid = some (num oid)) ∧
        (∀ c p, p ∈ repo.parents c → num p < num c) ∧ (num = repo.correctedDate ∨ num = repo.level) := by
    cases hdates : readsGenerationData version layers with
    | true =>
      refine ⟨repo.correctedDate, fun oid ⟨l, hl, hoid⟩ => ?_, fun _ _ hp => Repository.correctedDate_lt hdate hcap hp, .inl rfl⟩
      rw [hnumber l hl oid hoid, hdates]
      rw [readsGenerationData, Bool.and_eq_true, List.all_eq_true] at hdates
      exact congrArg some (h.date l hl (hdates.2 l hl) oid hoid)
    | false =>
      refine ⟨repo.level, fun oid ⟨l, hl, hoid⟩ => ?_, fun _ _ hp => Repository.level_lt hp (hcap _), .inr rfl⟩
      rw [hnumber l hl oid hoid, hdates]
      exact congrArg some (h.level l hl oid hoid)
  refine ⟨fun g hg oid hoid => ⟨num oid, hnum oid (hlayer g hg oid hoid), fun p hp => ⟨num p, ?_, hlt oid p hp⟩⟩, ?_⟩
  · exact hnum p (closed_of_distribution h.distribution h.commits (hlayer g hg oid hoid) hp)
  · rcases hkind with rfl | rfl
    · exact .inl fun g hg oid hoid => hnum oid (hlayer g hg oid hoid)
    · exact .inr fun g hg oid hoid => hnum oid (hlayer g hg oid hoid)

/-- After every run of writes none of which keeps a mixed base, the chain is written and loads with
generation numbers that are greater than those of the parents. -/
theorem generationsIncrease_of_run (hdate : ∀ oid, repo.date oid < 2 ^ 34)
    (hcap : LevelsBelowCap repo) (hrun : Relation.ReflTransGen (UnmixedWrite repo) [] layers) :
    ∃ files, writeLayers layers = some files ∧ ∀ version, GenerationsIncrease repo (loadCommitGraphChain version files) := by
  have hinv : IsSound repo layers ∧ WithinLimits layers := by
    induction hrun with
    | refl => exact ⟨⟨trivial, by simp, by simp, by simp⟩, Nat.zero_le _, by simp⟩
    | tail _ hstep ih =>
      obtain ⟨req, hwrite, hmixed, hlimits⟩ := hstep
      exact ⟨hwrite.isSound hdate hcap ih.1 hmixed, hlimits⟩
  exact hinv.1.generationsIncrease hdate hcap hinv.2

section Mixed

def mixedRank (oid : ObjectId) : Nat :=
  if oid = [0, 2] then 1 else if oid = [1, 1] then 2 else if oid = [2, 1] then 3 else 0

def mixedParents (oid : ObjectId) : List ObjectId :=
  if oid = [0, 2] then [[0, 1]] else if oid = [1, 1] then [[0, 2]] else if oid = [2, 1] then [[1, 1]] else []

lemma mixedRank_lt {p c : ObjectId} (h : p ∈ mixedParents c) : mixedRank p < mixedRank c := by
  rw [mixedParents] at h
  split_ifs at h with h₁ h₂ h₃
  · rw [List.mem_singleton.mp h, h₁]
    decide
  · rw [List.mem_singleton.mp h, h₂]
    decide
  · rw [List.mem_singleton.mp h, h₃]
    decide
  · cases h

def mixedRepo : Repository where
  tree _ := [0, 0]
  parents := mixedParents
  date oid := if oid = [0, 1] then 1000 else 20
  date_lt oid := by split_ifs <;> decide
  acyclic := Subrelation.wf (fun h => mixedRank_lt h) (measure mixedRank).wf

lemma mixedRepo_level_le (c : ObjectId) : mixedRepo.level c ≤ mixedRank c + 1 := by
  induction c using mixedRepo.acyclic.induction with
  | _ c ih =>
    have hmax : maxGeneration mixedRepo.level (mixedRepo.parents c) ≤ mixedRank c := maxGeneration_le fun p hp =>
      (ih p hp).trans (mixedRank_lt hp)
    rw [Repository.level_eq]
    omega

lemma mixedRepo_level_lt (c : ObjectId) : mixedRepo.level c < generationNumberV1Max := by
  refine (mixedRepo_level_le c).trans_lt ?_
  rw [mixedRank]
  split_ifs <;> decide

def mixedBase : LayerInput 2 where
  commits := [[0, 1], [0, 2], [0, 3], [0, 4], [0, 5]].map mixedRepo.commit
  sorted := by decide
  length_oid := by simp [Repository.commit]
  topoLevel oid := if oid = [0, 2] then 2 else 1
  topoLevel_le c _ := by split_ifs <;> decide
  generation oid := if oid = [0, 1] then 1000 else if oid = [0, 2] then 1001 else 20
  generation_lt c _ := by split_ifs <;> decide
  writeGenerationData := true
  generationVersion := 2
  known _ := false

def mixedMiddle : LayerInput 2 where
  commits := [[1, 1]].map mixedRepo.commit
  sorted := by decide
  length_oid := by simp [Repository.commit]
  topoLevel _ := 3
  topoLevel_le _ _ := by decide
  generation _ := 0
  generation_lt _ _ := by decide
  writeGenerationData := false
  generationVersion := 1
  known _ := false

def mixedTop : LayerInput 2 where
  commits := [[1, 1], [2, 1]].map mixedRepo.commit
  sorted := by decide
  length_oid := by simp [Repository.commit]
  topoLevel oid := if oid = [1, 1] then 3 else 4
  topoLevel_le c _ := by split_ifs <;> decide
  generation oid := if oid = [1, 1] then 20 else 21
  generation_lt c _ := by split_ifs <;> decide
  writeGenerationData := true
  generationVersion := 2
  known _ := false

def splitRequest (generationVersion : Nat) (oids filled : List ObjectId) : WriteRequest where
  split := true
  splitFlags := .unspecified
  sizeMultiple := 0
  maxCommits := 0
  generationVersion := generationVersion
  oids := oids
  filled oid := decide (oid ∈ filled)
  levelKnown _ := false

def mixedRequest₁ : WriteRequest := splitRequest 2 [[0, 1], [0, 2], [0, 3], [0, 4], [0, 5]] []

def mixedRequest₂ : WriteRequest := splitRequest 1 [[0, 2], [1, 1]] [[0, 2]]

def mixedRequest₃ : WriteRequest := splitRequest 2 [[1, 1], [2, 1]] [[0, 1], [0, 2], [1, 1]]

lemma eq_commit_of_map {oids : List ObjectId} : ∀ c ∈ oids.map repo.commit, c = repo.commit c.oid := by
  intro c hc
  obtain ⟨oid, -, rfl⟩ := List.mem_map.mp hc
  exact rfl

lemma mixedWrite₁ : WriteCommitGraph mixedRepo mixedRequest₁ [] [mixedBase] := by
  refine .layer ⟨.inr rfl, by decide⟩
    ⟨fun oid => ?_, eq_commit_of_map, rfl, rfl, ⟨20, by decide⟩, fun _ => ⟨20, by decide⟩⟩
  have hcopy : copyOidsToCommits mixedRequest₁ ([] : List (LayerInput 2)) = mixedBase.oids := by decide
  have hmerged : mergedLayers mixedRequest₁ ([] : List (LayerInput 2)) = [] := rfl
  rw [hcopy, hmerged]
  simp [InChain]

lemma mixedWrite₂ : WriteCommitGraph mixedRepo mixedRequest₂ [mixedBase] [mixedMiddle, mixedBase] := by
  refine .layer ⟨.inl rfl, by decide⟩
    ⟨fun oid => ?_, eq_commit_of_map, rfl, rfl, ⟨20, by decide⟩, fun h => absurd h (by decide)⟩
  have hcopy : copyOidsToCommits mixedRequest₂ [mixedBase] = mixedMiddle.oids := by decide
  have hmerged : mergedLayers mixedRequest₂ [mixedBase] = [] := rfl
  rw [hcopy, hmerged]
  simp [InChain]

lemma mixedWrite₃ : WriteCommitGraph mixedRepo mixedRequest₃ [mixedMiddle, mixedBase] [mixedTop, mixedBase] := by
  refine .layer ⟨.inr rfl, by decide⟩
    ⟨fun oid => ?_, eq_commit_of_map, rfl, rfl, ⟨20, by decide⟩, fun _ => ⟨20, by decide⟩⟩
  have hcopy : copyOidsToCommits mixedRequest₃ [mixedMiddle, mixedBase] = [[2, 1]] := by decide
  have hmerged : mergedLayers mixedRequest₃ [mixedMiddle, mixedBase] = [mixedMiddle] := rfl
  have hmiddle : InChain [mixedMiddle] oid ↔ oid ∈ mixedMiddle.oids := by simp [InChain]
  have hoids : mixedMiddle.oids = [[1, 1]] := rfl
  have htop : mixedTop.oids = [[1, 1], [2, 1]] := rfl
  rw [hcopy, hmerged, hmiddle, htop, hoids]
  simp [or_comm]

theorem generationsIncrease_of_run_sample : ∃ files, writeLayers [mixedMiddle, mixedBase] = some files ∧
    ∀ version, GenerationsIncrease mixedRepo (loadCommitGraphChain version files) := by
  have hrun : Relation.ReflTransGen (UnmixedWrite mixedRepo) [] [mixedMiddle, mixedBase] := by
    refine .tail (.single ⟨_, mixedWrite₁, fun h => h.2.1 rfl, ?_⟩) ⟨_, mixedWrite₂, fun h => absurd h.1 (by decide), ?_⟩
    · exact ⟨by decide, by decide⟩
    · exact ⟨by decide, by decide⟩
  refine generationsIncrease_of_run (fun oid => ?_) mixedRepo_level_lt hrun
  rw [mixedRepo]
  dsimp only
  split_ifs <;> decide

/-- The third write puts dates on the first layer, which it has loaded with levels: the commit above
`[0, 2]` gets a smaller number than that. -/
theorem generationsIncrease_mixed : ∃ (repo : Repository) (layers : List (LayerInput 2)) (files : List GraphFile),
    LevelsBelowCap repo ∧ Relation.ReflTransGen (AnyWrite repo) [] layers ∧ writeLayers layers = some files ∧
      ¬ GenerationsIncrease repo (loadCommitGraphChain 2 files) := by
  have hdist : IsDistribution [mixedTop, mixedBase] := by
    simp only [IsDistribution]
    decide
  obtain ⟨files, hfiles, hloaded⟩ := loadedGeneration_written hdist ⟨by decide, by decide⟩
  obtain ⟨htables, hnumber⟩ := hloaded 2
  refine ⟨mixedRepo, [mixedTop, mixedBase], files, mixedRepo_level_lt,
    .tail (.tail (.single ⟨_, mixedWrite₁⟩) ⟨_, mixedWrite₂⟩) ⟨_, mixedWrite₃⟩, hfiles, fun h => ?_⟩
  have htop : mixedTop.oids ∈ (loadCommitGraphChain 2 files).map (·.chunkOidLookup) := by
    rw [htables]
    exact List.mem_cons_self
  obtain ⟨g, hg, heq⟩ := List.mem_map.mp htop
  have hmem : [1, 1] ∈ g.chunkOidLookup := by
    rw [heq]
    decide
  obtain ⟨gen, hgen, hparents⟩ := h.increase g hg [1, 1] hmem
  obtain ⟨genParent, hgenParent, hlt⟩ := hparents [0, 2] (by decide)
  have hchild := hnumber mixedTop (by simp) [1, 1] (by decide)
  have hparent := hnumber mixedBase (by simp) [0, 2] (by decide)
  rw [hgen, Option.some_inj] at hchild
  rw [hgenParent, Option.some_inj] at hparent
  rw [hchild, hparent] at hlt
  exact absurd hlt (by decide)

end Mixed

end Run

end GitCore.Graph
