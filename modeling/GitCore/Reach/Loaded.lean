import GitCore.Graph.Chain
import GitCore.Reach.AllReach
import GitCore.Reach.MergeBasesSpec
import GitCore.Reach.Tips

/-!
# Walks over a commit-graph that was written

The numbers that a run of writes leaves in the loaded chain are as the walks of `commit-reach.c` need them.
-/

namespace GitCore.Reach

open Graph (CommitGraph ObjectId Repository UnmixedWrite LayerInput loadedGeneration searchCommitPosInGraph)

def commitGraphGeneration (chain : List CommitGraph) (oid : ObjectId) : Nat :=
  match loadedGeneration chain oid with
  | some generation => if generation ≠ 0 then generation else generationNumberInfinity
  | none => generationNumberInfinity

/-- The commits of the chain have numbers that a walk may use, and the others have none. -/
def Numbered (repo : Repository) (chain : List CommitGraph) : Prop :=
  ∀ oid gen, loadedGeneration chain oid = some gen → 0 < gen ∧ gen < generationNumberInfinity ∧
    ∀ p ∈ repo.parents oid, ∃ genParent, loadedGeneration chain p = some genParent ∧ genParent < gen

section Numbers

variable {rawsz : Nat} {repo : Repository} {layers : List (LayerInput rawsz)} {chain : List CommitGraph} {oid : ObjectId}

lemma mem_of_searchCommitPos (hchain : Graph.IsChain rawsz chain) {pos : Nat} (h : searchCommitPosInGraph oid chain = some pos) :
    ∃ g ∈ chain, oid ∈ g.chunkOidLookup := by
  induction hchain with
  | nil => cases h
  | @cons g base table fanout disjoint below ih =>
    by_cases hmem : oid ∈ g.chunkOidLookup
    · exact ⟨g, List.mem_cons_self, hmem⟩
    · rw [searchCommitPosInGraph, fanout, (Graph.bsearchHash_spec table oid).2 hmem] at h
      obtain ⟨g', hg', hmem'⟩ := ih h
      exact ⟨g', List.mem_cons_of_mem g hg', hmem'⟩

lemma isSound_of_run (hdate : ∀ oid, repo.date oid < 2 ^ 34) (hcap : Graph.LevelsBelowCap repo)
    (hrun : Relation.ReflTransGen (UnmixedWrite repo) [] layers) : Graph.IsSound repo layers ∧ Graph.WithinLimits layers := by
  induction hrun with
  | refl => exact ⟨⟨trivial, by simp, by simp, by simp⟩, Nat.zero_le _, by simp⟩
  | tail _ hstep ih =>
    obtain ⟨req, hwrite, hmixed, hlimits⟩ := hstep
    exact ⟨hwrite.isSound hdate hcap ih.1 hmixed, hlimits⟩

lemma numbered_of_run (hdate : ∀ oid, repo.date oid < 2 ^ 34) (hcap : Graph.LevelsBelowCap repo)
    (hrun : Relation.ReflTransGen (UnmixedWrite repo) [] layers) :
    ∃ files, Graph.writeLayers layers = some files ∧ ∀ version, Numbered repo (Graph.loadCommitGraphChain version files) := by
  obtain ⟨hsound, hlimits⟩ := isSound_of_run hdate hcap hrun
  obtain ⟨files, hfiles, hincrease⟩ := hsound.generationsIncrease hdate hcap hlimits
  obtain ⟨files', hfiles', hforall, -⟩ := Graph.writeLayers_reads hsound.distribution hlimits.1 hlimits.2
  obtain rfl : files = files' := Option.some_inj.mp (hfiles.symm.trans hfiles')
  refine ⟨files, hfiles, fun version oid gen hgen => ?_⟩
  obtain ⟨pos, hpos, -⟩ := Option.bind_eq_some_iff.mp hgen
  have hchain := Graph.isChain_parseWith hforall hsound.distribution version
    (decide (2 ≤ version) && files.all (·.chunkGenerationData.isSome))
  rw [← Graph.loadCommitGraphChain_eq] at hchain
  obtain ⟨g, hg, hmem⟩ := mem_of_searchCommitPos hchain hpos
  obtain ⟨gen', hgen', hparents⟩ := (hincrease version).increase g hg oid hmem
  obtain rfl : gen' = gen := Option.some_inj.mp (hgen'.symm.trans hgen)
  have hlevel := hcap oid
  have hkind : gen' = repo.correctedDate oid ∨ gen' = repo.level oid :=
    (hincrease version).uniform.imp (fun h => Option.some_inj.mp (hgen'.symm.trans (h g hg oid hmem)))
      fun h => Option.some_inj.mp (hgen'.symm.trans (h g hg oid hmem))
  have hbounds : 0 < gen' ∧ gen' < generationNumberInfinity := by
    rw [Graph.generationNumberV1Max] at hlevel
    rw [generationNumberInfinity]
    rcases hkind with rfl | rfl
    · have hle := Repository.correctedDate_le hdate hcap oid
      have heq := Repository.correctedDate_eq hdate hcap oid
      omega
    · have := @Repository.level_pos repo oid
      omega
  exact ⟨hbounds.1, hbounds.2, hparents⟩

end Numbers

section Walks

variable {repo : Repository} {chain : List CommitGraph} {commits : Finset ObjectId} {oid p : ObjectId}

lemma commitGraphGeneration_none (h : loadedGeneration chain oid = none) :
    commitGraphGeneration chain oid = generationNumberInfinity := by
  rw [commitGraphGeneration, h]

lemma Numbered.generation_eq (h : Numbered repo chain) {gen : Nat} (hgen : loadedGeneration chain oid = some gen) :
    commitGraphGeneration chain oid = gen := by
  rw [commitGraphGeneration, hgen]
  exact if_pos (h oid gen hgen).1.ne'

lemma Numbered.generation_bounds (h : Numbered repo chain) (oid : ObjectId) :
    0 < commitGraphGeneration chain oid ∧ commitGraphGeneration chain oid ≤ generationNumberInfinity := by
  cases hgen : loadedGeneration chain oid with
  | none =>
    rw [commitGraphGeneration_none hgen]
    exact ⟨by decide, le_rfl⟩
  | some gen =>
    rw [h.generation_eq hgen]
    exact ⟨(h oid gen hgen).1, (h oid gen hgen).2.1.le⟩

lemma Numbered.generation_lt (h : Numbered repo chain) (hp : p ∈ repo.parents oid)
    (hfinite : commitGraphGeneration chain oid < generationNumberInfinity) :
    commitGraphGeneration chain p < commitGraphGeneration chain oid := by
  cases hgen : loadedGeneration chain oid with
  | none => exact absurd hfinite (by rw [commitGraphGeneration_none hgen]; exact lt_irrefl _)
  | some gen =>
    obtain ⟨genParent, hparent, hlt⟩ := (h oid gen hgen).2.2 p hp
    rwa [h.generation_eq hgen, h.generation_eq hparent]

/-- The commits of a repository as a walk sees them once they are looked up in the chain. -/
def loadedDag (h : Numbered repo chain) (hclosed : ∀ c ∈ commits, ∀ p ∈ repo.parents c, p ∈ commits) :
    CommitDag {c // c ∈ commits} where
  parents c := (repo.parents c).attachWith (· ∈ commits) (hclosed c c.2)
  date c := repo.date c
  generation c := commitGraphGeneration chain c
  acyclic := Subrelation.wf (fun hp => (List.mem_attachWith _ _).mp hp) (InvImage.wf Subtype.val repo.acyclic)
  generation_pos c := (h.generation_bounds c).1
  generation_le c := (h.generation_bounds c).2
  generation_lt _ _ hp hfinite := h.generation_lt ((List.mem_attachWith _ _).mp hp) hfinite

/-- One commit is an ancestor of the other or the same commit. -/
def History (repo : Repository) : ObjectId → ObjectId → Prop :=
  Relation.ReflTransGen fun c p => p ∈ repo.parents c

lemma reaches_loadedDag (h : Numbered repo chain) (hclosed : ∀ c ∈ commits, ∀ p ∈ repo.parents c, p ∈ commits)
    {c d : {c // c ∈ commits}} : Reaches (loadedDag h hclosed) c d ↔ History repo c d := by
  constructor
  · exact Relation.ReflTransGen.lift Subtype.val (fun c p hp => (List.mem_attachWith _ _).mp hp) c d
  · obtain ⟨c, hc⟩ := c
    obtain ⟨d, hd⟩ := d
    intro (hreach : History repo c d)
    induction hreach using Relation.ReflTransGen.head_induction_on with
    | refl => exact .refl
    | head hp _ ih => exact .head ((List.mem_attachWith _ _).mpr hp) (ih (hclosed _ hc _ hp))

/-- The layers are written, and whichever generation version is asked for, `P` holds of the commits as they are loaded. -/
def WhenLoaded {rawsz : Nat} (repo : Repository) (layers : List (LayerInput rawsz))
    (P : ∀ commits : Finset ObjectId, CommitDag {c // c ∈ commits} → Prop) : Prop :=
  ∃ files, Graph.writeLayers layers = some files ∧
    ∀ version (commits : Finset ObjectId) (hclosed : ∀ c ∈ commits, ∀ p ∈ repo.parents c, p ∈ commits),
    ∃ h : Numbered repo (Graph.loadCommitGraphChain version files), P commits (loadedDag h hclosed)

lemma whenLoaded_of_run {rawsz : Nat} {layers : List (LayerInput rawsz)} (hdate : ∀ oid, repo.date oid < 2 ^ 34)
    (hcap : Graph.LevelsBelowCap repo) (hrun : Relation.ReflTransGen (UnmixedWrite repo) [] layers)
    {P : ∀ commits : Finset ObjectId, CommitDag {c // c ∈ commits} → Prop}
    (hP : ∀ {chain : List CommitGraph} {commits : Finset ObjectId} (h : Numbered repo chain)
      (hclosed : ∀ c ∈ commits, ∀ p ∈ repo.parents c, p ∈ commits), P commits (loadedDag h hclosed)) :
    WhenLoaded repo layers P := by
  obtain ⟨files, hfiles, hnumbered⟩ := numbered_of_run hdate hcap hrun
  exact ⟨files, hfiles, fun version commits hclosed => ⟨hnumbered version, hP _ hclosed⟩⟩

/-- The walks that stop at generation numbers answer what the history says. -/
def WalksAnswer {rawsz : Nat} (repo : Repository) (layers : List (LayerInput rawsz)) : Prop :=
  WhenLoaded repo layers fun _ dag => ∀ fromCommits toCommits,
    (∃ result, canAllFromReach dag ∅ fromCommits toCommits false = (result, ∅) ∧
      (result = true ↔ ∀ c ∈ fromCommits, ∃ t ∈ toCommits, History repo c t)) ∧
    (∀ reachableFlag, (getReachableSubset dag reachableFlag fromCommits toCommits ∅).2.Nodup) ∧
    ∀ c, ((c, TipMark.mark) ∈ tipsReachableFromBases dag fromCommits toCommits ∅ ↔
        c ∈ toCommits ∧ ∃ base ∈ fromCommits, History repo base c) ∧
      ∀ reachableFlag, c ∈ (getReachableSubset dag reachableFlag fromCommits toCommits ∅).2 ↔
        c ∈ toCommits ∧ ∃ base ∈ fromCommits, History repo base c

/-- A common ancestor that no other one descends from. -/
def HistoryMergeBase (repo : Repository) (one : ObjectId) (twos : List ObjectId) (c : ObjectId) : Prop :=
  let Common d := History repo one d ∧ ∃ two ∈ twos, History repo two d
  Common c ∧ ∀ d, Common d → History repo d c → d = c

lemma isMergeBase_loadedDag (h : Numbered repo chain) (hclosed : ∀ c ∈ commits, ∀ p ∈ repo.parents c, p ∈ commits)
    {one c : {c // c ∈ commits}} {twos : List {c // c ∈ commits}} :
    IsMergeBase (loadedDag h hclosed) one twos c ↔ HistoryMergeBase repo one (twos.map Subtype.val) c := by
  have hcommon (d : {c // c ∈ commits}) : IsCommon (loadedDag h hclosed) one twos d ↔
      History repo one d ∧ ∃ two ∈ twos.map Subtype.val, History repo two d := by
    simp [IsCommon, reaches_loadedDag]
  have hbelow (d : {c // c ∈ commits}) : ¬ ProperAncestor (loadedDag h hclosed) c d ↔ History repo d c → d = c := by
    rw [← reaches_loadedDag h hclosed, reaches_iff_eq_or_properAncestor]
    refine ⟨fun hnot hr => (hr.resolve_right hnot).symm, fun heq hlt => ?_⟩
    obtain rfl := heq (.inr hlt)
    exact not_properAncestor_self d hlt
  have hmem (d : ObjectId) (hd : History repo one d) : d ∈ commits := by
    induction hd with
    | refl => exact one.2
    | tail _ hp ih => exact hclosed _ ih _ hp
  rw [IsMergeBase, HistoryMergeBase, hcommon]
  refine and_congr_right fun _ => ⟨fun hall d hd hr => ?_, fun hall d hd => (hbelow d).mpr fun hr => ?_⟩
  · exact congrArg Subtype.val ((hbelow ⟨d, hmem d hd.1⟩).mp (hall ⟨d, hmem d hd.1⟩ ((hcommon _).mpr hd)) hr)
  · exact Subtype.ext (hall d ((hcommon d).mp hd) hr)

def MergeBasesAnswer {rawsz : Nat} (repo : Repository) (layers : List (LayerInput rawsz)) : Prop :=
  WhenLoaded repo layers fun _ dag => ∀ generationNumbersEnabled correctedCommitDatesEnabled one twos, twos ≠ [] →
    ∃ result, repoGetMergeBasesMany dag generationNumbersEnabled correctedCommitDatesEnabled ∅ one twos = some (∅, result) ∧
      result.Nodup ∧ ∀ c, c ∈ result ↔ HistoryMergeBase repo one (twos.map Subtype.val) c

lemma mixedRun : (∀ oid, Graph.mixedRepo.date oid < 2 ^ 34) ∧
    Relation.ReflTransGen (UnmixedWrite Graph.mixedRepo) [] [Graph.mixedMiddle, Graph.mixedBase] := by
  refine ⟨fun oid => ?_, .tail (.single ⟨_, Graph.mixedWrite₁, fun h => h.2.1 rfl, ?_⟩)
    ⟨_, Graph.mixedWrite₂, fun h => absurd h.1 (by decide), ?_⟩⟩
  · rw [Graph.mixedRepo]
    dsimp only
    split_ifs <;> decide
  · exact ⟨by decide, by decide⟩
  · exact ⟨by decide, by decide⟩

end Walks

end GitCore.Reach
