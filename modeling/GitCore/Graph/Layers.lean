import GitCore.Graph.RoundTrip
import GitCore.Graph.Generation

/-!
# Chains of layers

What every layer of a chain is written from, the files that are written, bottom layer first, and
what is read back from them.
-/

namespace GitCore.Graph

/-- One layer: its commits with their numbers, whether the dates are written, and under which
`commitGraph.generationVersion` the layers below were loaded. `known` are the commits of them that
were already looked up. -/
structure LayerInput (rawsz : Nat) where
  commits : List Commit
  sorted : (commits.map Commit.oid).Pairwise (· < ·)
  length_oid : ∀ c ∈ commits, c.oid.length = rawsz
  topoLevel : ObjectId → Nat
  topoLevel_le : ∀ c ∈ commits, topoLevel c.oid ≤ generationNumberV1Max
  generation : ObjectId → Nat
  generation_lt : ∀ c ∈ commits, generation c.oid < 2 ^ 64
  writeGenerationData : Bool
  generationVersion : Nat
  known : ObjectId → Bool

variable {rawsz : Nat}

abbrev LayerInput.oids (l : LayerInput rawsz) : List ObjectId := l.commits.map Commit.oid

def LayerInput.context (l : LayerInput rawsz) (files : List GraphFile) : WriteContext where
  rawsz := rawsz
  commits := l.commits
  topoLevel := l.topoLevel
  generation := l.generation
  graphPosition oid :=
    if l.known oid then searchCommitPosInGraph oid (loadCommitGraphChain l.generationVersion files) else none
  writeGenerationData := l.writeGenerationData
  newBaseGraph := loadCommitGraphChain l.generationVersion files

def writeLayers : List (LayerInput rawsz) → Option (List GraphFile)
  | [] => some []
  | l :: below => do
    let files ← writeLayers below
    let file ← writeCommitGraphFile (l.context files)
    some (file :: files)

def IsDistribution : List (LayerInput rawsz) → Prop
  | [] => True
  | l :: below =>
    (∀ oid ∈ l.oids, ∀ b ∈ below, oid ∉ b.oids) ∧
      (∀ c ∈ l.commits, ∀ p ∈ c.parents, ∃ b ∈ l :: below, p ∈ b.oids) ∧ IsDistribution below

def totalLayerCommits (layers : List (LayerInput rawsz)) : Nat :=
  (layers.map fun l => l.commits.length).sum

def readsGenerationData (generationVersion : Nat) (layers : List (LayerInput rawsz)) : Bool :=
  decide (2 ≤ generationVersion) && layers.all (·.writeGenerationData)

/-- The number that was computed for a commit: the corrected date or the topological level. -/
def LayerInput.number (l : LayerInput rawsz) (dates : Bool) (oid : ObjectId) : Nat :=
  if dates then l.generation oid else l.topoLevel oid

def ReadsBackFrom (chain : List CommitGraph) (dates : Bool) (l : LayerInput rawsz) (c : Commit) : Prop :=
  ∃ pos, searchCommitPosInGraph c.oid chain = some pos ∧ loadTreeForCommit chain pos = some c.tree ∧
    fillCommitInGraph chain pos =
      some { parents := c.parents, date := c.date % 2 ^ 34, generation := l.number dates c.oid }

/-- The layers can be written, and every commit is read back whichever generation version is configured. -/
def ReadsBack (layers : List (LayerInput rawsz)) : Prop :=
  ∃ files, writeLayers layers = some files ∧ ∀ version, ∀ l ∈ layers, ∀ c ∈ l.commits,
    ReadsBackFrom (loadCommitGraphChain version files) (readsGenerationData version layers) l c

def parseWith (version : Nat) (dates : Bool) (file : GraphFile) : CommitGraph :=
  { parseCommitGraph version file with readGenerationData := dates }

lemma loadCommitGraphChain_eq (version : Nat) (files : List GraphFile) :
    loadCommitGraphChain version files =
      files.map (parseWith version (decide (2 ≤ version) && files.all (·.chunkGenerationData.isSome))) := by
  rw [loadCommitGraphChain, validateMixedGenerationChain]
  cases files with
  | nil => rfl
  | cons f files =>
    have hall : ((f :: files).map (parseCommitGraph version)).all (·.readGenerationData) =
        (decide (2 ≤ version) && (f :: files).all (·.chunkGenerationData.isSome)) := by
      by_cases hv : 2 ≤ version
      · simp [parseCommitGraph, hv, Function.comp_def]
      · simp [parseCommitGraph, hv]
    split_ifs with h
    · rw [← hall, h]
      refine List.map_congr_left fun g hg => ?_
      have := List.all_eq_true.mp h _ (List.mem_map_of_mem hg)
      rw [parseWith, ← this]
    · rw [← hall, Bool.not_eq_true _ |>.mp h, List.map_map]
      exact rfl

section Tables

abbrev tables (chain : List CommitGraph) : List (List ObjectId) := chain.map (·.chunkOidLookup)

lemma totalCommits_eq (chain : List CommitGraph) : totalCommits chain = ((tables chain).map List.length).sum := by
  rw [totalCommits, tables, List.map_map]
  exact rfl

lemma loadOidFromGraph_congr {chain chain' : List CommitGraph} (h : tables chain = tables chain') (pos : Nat) :
    loadOidFromGraph chain pos = loadOidFromGraph chain' pos := by
  induction chain generalizing chain' with
  | nil =>
    rw [List.map_eq_nil_iff.mp h.symm]
  | cons g base ih =>
    obtain ⟨g', base', rfl, htop, hbase⟩ := List.map_eq_cons_iff.mp h.symm
    have htotal : totalCommits base = totalCommits base' := by
      rw [totalCommits_eq, totalCommits_eq, tables, tables, hbase]
    rcases lt_or_ge pos (totalCommits base) with hpos | hpos
    · rw [loadOidFromGraph_base hpos, loadOidFromGraph_base (htotal ▸ hpos)]
      exact ih hbase.symm
    · rw [loadOidFromGraph_top hpos, loadOidFromGraph_top (htotal ▸ hpos), htotal, htop]

lemma IsEdge.congr {chain chain' : List CommitGraph} (h : tables chain = tables chain') {value : Nat} {oid : ObjectId}
    (hedge : IsEdge chain value oid) : IsEdge chain' value oid := by
  obtain ⟨hlt, htotal, hload⟩ := hedge
  refine ⟨hlt, ?_, by rw [← loadOidFromGraph_congr h, hload]⟩
  rwa [totalCommits_eq, ← h, ← totalCommits_eq]

structure IsFileOf (l : LayerInput rawsz) (file : GraphFile) : Prop where
  lookup : file.chunkOidLookup = l.oids
  fanout : file.chunkOidFanout = writeGraphChunkFanout file.chunkOidLookup
  dates : file.chunkGenerationData.isSome = l.writeGenerationData

variable {layers : List (LayerInput rawsz)} {files : List GraphFile}

lemma tables_parseWith (h : List.Forall₂ IsFileOf layers files)
    (version : Nat) (dates : Bool) : tables (files.map (parseWith version dates)) = layers.map LayerInput.oids := by
  induction h with
  | nil => rfl
  | cons hfile _ ih =>
    rw [List.map_cons, tables, List.map_cons, ← tables, ih, List.map_cons, ← hfile.lookup]
    exact rfl

lemma totalCommits_parseWith
    (h : List.Forall₂ IsFileOf layers files) (version : Nat) (dates : Bool) :
    totalCommits (files.map (parseWith version dates)) = totalLayerCommits layers := by
  rw [totalCommits_eq, tables_parseWith h, totalLayerCommits, List.map_map]
  simp [Function.comp_def]

lemma LayerInput.isTable (l : LayerInput rawsz) : IsTable rawsz l.oids := by
  refine ⟨l.sorted, fun oid h => ?_⟩
  obtain ⟨c, hc, rfl⟩ := List.mem_map.mp h
  exact l.length_oid c hc

lemma isChain_parseWith (h : List.Forall₂ IsFileOf layers files)
    (hdist : IsDistribution layers) (version : Nat) (dates : Bool) :
    IsChain rawsz (files.map (parseWith version dates)) := by
  induction h with
  | nil => exact .nil
  | @cons l file below files hfile hbelow ih =>
    obtain ⟨hdisjoint, -, hdist⟩ := hdist
    rw [List.map_cons]
    refine .cons ?_ hfile.fanout (fun g hg oid hoid => ?_) (ih hdist)
    · have htable := l.isTable
      rw [← hfile.lookup] at htable
      exact htable
    · have hoids : g.chunkOidLookup ∈ below.map LayerInput.oids := by
        rw [← tables_parseWith hbelow version dates]
        exact List.mem_map_of_mem hg
      obtain ⟨b, hb, heq⟩ := List.mem_map.mp hoids
      have hin : oid ∈ file.chunkOidLookup := hoid
      rw [hfile.lookup] at hin
      rw [← heq]
      exact hdisjoint oid hin b hb

end Tables

section Write

variable {l : LayerInput rawsz} {below : List (LayerInput rawsz)} {files : List GraphFile}

def LayerInput.nameTable (l : LayerInput rawsz) : CommitGraph where
  chunkOidFanout := writeGraphChunkFanout l.oids
  chunkOidLookup := l.oids
  chunkCommitData := []
  chunkGenerationData := none
  chunkGenerationDataOverflow := none
  chunkExtraEdges := none
  readGenerationData := false

lemma isLayer_nameTable (h : List.Forall₂ IsFileOf below files) (hdist : IsDistribution (l :: below))
    (hsmall : totalLayerCommits (l :: below) ≤ 2 ^ 31) : IsLayer (l.context files) l.nameTable := by
  obtain ⟨hdisjoint, -, hbelow⟩ := hdist
  have hbase : (l.context files).newBaseGraph = loadCommitGraphChain l.generationVersion files := rfl
  rw [loadCommitGraphChain_eq] at hbase
  refine ⟨rfl, fun oid pos hknown => ?_, ?_, ?_⟩
  · have hdef : (l.context files).graphPosition oid =
        if l.known oid then searchCommitPosInGraph oid (l.context files).newBaseGraph else none := rfl
    rw [hdef] at hknown
    split_ifs at hknown
    exact hknown
  · rw [hbase]
    refine .cons l.isTable rfl (fun g hg oid hoid => ?_) (isChain_parseWith h hbelow _ _)
    have hoids : g.chunkOidLookup ∈ below.map LayerInput.oids := by
      rw [← tables_parseWith h l.generationVersion]
      exact List.mem_map_of_mem hg
    obtain ⟨b, hb, heq⟩ := List.mem_map.mp hoids
    rw [← heq]
    exact hdisjoint oid hoid b hb
  · rw [totalCommits_cons, hbase, totalCommits_parseWith h]
    rw [totalLayerCommits, List.map_cons, List.sum_cons, ← totalLayerCommits] at hsmall
    rw [CommitGraph.numCommits, LayerInput.nameTable, List.length_map]
    exact hsmall

lemma exists_edge (h : List.Forall₂ IsFileOf below files) (hdist : IsDistribution (l :: below))
    (hsmall : totalLayerCommits (l :: below) ≤ 2 ^ 31) {c : Commit} (hc : c ∈ l.commits) {p : ObjectId} (hp : p ∈ c.parents) :
    ∃ value, edgeValue (l.context files) p = some value ∧
      IsEdge (l.nameTable :: (l.context files).newBaseGraph) value p := by
  obtain ⟨b, hb, hpb⟩ := hdist.2.1 c hc p hp
  refine edgeValue_isEdge (isLayer_nameTable h hdist hsmall) (b.isTable.length_eq p hpb) ?_
  rcases List.mem_cons.mp hb with rfl | hb
  · exact ⟨_, List.mem_cons_self, hpb⟩
  · have hbase : (l.context files).newBaseGraph = loadCommitGraphChain l.generationVersion files := rfl
    rw [loadCommitGraphChain_eq] at hbase
    have hoids : b.oids ∈ tables (l.context files).newBaseGraph := by
      rw [hbase, tables_parseWith h]
      exact List.mem_map_of_mem hb
    obtain ⟨g, hg, heq⟩ := List.mem_map.mp hoids
    exact ⟨g, List.mem_cons_of_mem _ hg, heq ▸ hpb⟩

structure IsWritten (ctx : WriteContext) (file : GraphFile) : Prop where
  lookup : file.chunkOidLookup = ctx.commits.map Commit.oid
  fanout : file.chunkOidFanout = writeGraphChunkFanout file.chunkOidLookup
  dates : file.chunkGenerationData =
    if ctx.writeGenerationData then some (writeGraphChunkGenerationData ctx 0 ctx.commits) else none
  overflow : file.chunkGenerationDataOverflow =
    if numGenerationDataOverflows ctx ≠ 0 then some (writeGraphChunkGenerationDataOverflow ctx ctx.commits) else none
  row : ∀ (i : Nat) (c : Commit), ctx.commits[i]? = some c →
    ∃ row, file.chunkCommitData[i]? = some row ∧ IsRow ctx (file.chunkExtraEdges.getD []) c row

lemma exists_written {ctx : WriteContext} {chain : List CommitGraph}
    (hedge : ∀ c ∈ ctx.commits, ∀ p ∈ c.parents, ∃ value, edgeValue ctx p = some value ∧ IsEdge chain value p)
    (hcount : countExtraEdges ctx.commits < 2 ^ 31) :
    ∃ file, writeCommitGraphFile ctx = some file ∧ IsWritten ctx file := by
  have htail : ∀ c ∈ ctx.commits, ∃ own, writeParentEdges ctx c.parents.tail = some own ∧
      own.length = c.parents.tail.length := by
    intro c hc
    by_cases hnil : c.parents.tail = []
    · exact ⟨[], by rw [hnil]; rfl, by rw [hnil]; rfl⟩
    · obtain ⟨own, hown, hlen, -⟩ := writeParentEdges_read hnil fun p hp => hedge c hc p (List.mem_of_mem_tail hp)
      exact ⟨own, hown, hlen⟩
  obtain ⟨rows, edges, hrows, hedges, hlen, hspec⟩ := @writeChunks_spec ctx ctx.commits 0 [] rfl (by omega)
    (fun c hc p hp => by
      obtain ⟨value, hvalue, -⟩ := hedge c hc p hp
      rw [hvalue]
      exact rfl) htail
  have hwrite : writeCommitGraphFile ctx = some
      { chunkOidFanout := writeGraphChunkFanout (ctx.commits.map Commit.oid)
        chunkOidLookup := ctx.commits.map Commit.oid
        chunkCommitData := rows
        chunkGenerationData :=
          if ctx.writeGenerationData then some (writeGraphChunkGenerationData ctx 0 ctx.commits) else none
        chunkGenerationDataOverflow :=
          if numGenerationDataOverflows ctx ≠ 0 then some (writeGraphChunkGenerationDataOverflow ctx ctx.commits)
          else none
        chunkExtraEdges := if countExtraEdges ctx.commits ≠ 0 then some edges else none } := by
    rw [writeCommitGraphFile, hrows, hedges, guard, if_pos hcount]
    exact rfl
  refine ⟨_, hwrite, rfl, rfl, rfl, rfl, fun i c hc => ?_⟩
  obtain ⟨row, hrow, hisRow⟩ := hspec i c hc
  refine ⟨row, hrow, ?_⟩
  have hgetD : (if countExtraEdges ctx.commits ≠ 0 then some edges else none).getD [] = edges := by
    split_ifs with hzero
    · exact rfl
    · rw [not_not] at hzero
      exact (List.length_eq_zero_iff.mp (hlen.trans hzero)).symm
  rw [hgetD]
  exact hisRow

end Write

section Read

def ReadsAt (chain : List CommitGraph) (pos : Nat) (c : Commit) (number : Nat) : Prop :=
  loadOidFromGraph chain pos = some c.oid ∧ loadTreeForCommit chain pos = some c.tree ∧
    fillCommitInGraph chain pos = some { parents := c.parents, date := c.date % 2 ^ 34, generation := number }

lemma ReadsAt.below {g : CommitGraph} {base : List CommitGraph} {pos number : Nat} {c : Commit}
    (hpos : pos < totalCommits base) (h : ReadsAt base pos c number) : ReadsAt (g :: base) pos c number := by
  obtain ⟨hload, htree, hfill⟩ := h
  refine ⟨by rw [loadOidFromGraph_base hpos, hload], ?_, ?_⟩
  · rw [loadTreeForCommit, layerAt_base hpos, ← loadTreeForCommit, htree]
  · rw [fillCommitInGraph, layerAt_base hpos, ← fillCommitInGraph, hfill]

lemma readsAt_top {l : LayerInput rawsz} {files : List GraphFile} {file : GraphFile} {base : List CommitGraph}
    {version : Nat} {dates : Bool} (hfile : IsWritten (l.context files) file)
    (hdates : dates = true → 2 ≤ version ∧ l.writeGenerationData = true)
    (htables : tables base = tables (l.context files).newBaseGraph)
    (hsmall : totalCommits (parseWith version dates file :: base) ≤ graphParentNone)
    (hedge : ∀ c ∈ l.commits, ∀ p ∈ c.parents, ∃ value, edgeValue (l.context files) p = some value ∧
      IsEdge (l.nameTable :: (l.context files).newBaseGraph) value p)
    {i : Nat} {c : Commit} (hc : l.commits[i]? = some c) :
    ReadsAt (parseWith version dates file :: base) (i + totalCommits base) c (l.number dates c.oid) := by
  have hmem : c ∈ l.commits := List.mem_of_getElem? hc
  obtain ⟨row, hrow, hisRow⟩ := hfile.row i c hc
  have hlevel : (l.context files).topoLevel c.oid < 2 ^ 30 := by
    have := l.topoLevel_le c hmem
    rw [generationNumberV1Max] at this
    exact Nat.lt_succ_of_le this
  have hchain : tables (l.nameTable :: (l.context files).newBaseGraph) = tables (parseWith version dates file :: base) := by
    rw [tables, tables, List.map_cons, List.map_cons, ← tables, ← tables, htables]
    congr 1
    exact hfile.lookup.symm
  have hlayer : layerAt (i + totalCommits base) (parseWith version dates file :: base) =
      parseWith version dates file :: base := layerAt_top (Nat.le_add_left _ _)
  have hlength : l.commits.length ≤ 2 ^ 31 := by
    rw [totalCommits_cons, CommitGraph.numCommits] at hsmall
    have hlookup : (parseWith version dates file).chunkOidLookup = l.commits.map Commit.oid := hfile.lookup
    rw [hlookup, List.length_map, graphParentNone] at hsmall
    omega
  have hdate := readDate_row hisRow hlevel
  have hgeneration : readGeneration (parseWith version dates file) i row = some (l.number dates c.oid) := by
    cases hcase : dates with
    | false =>
      rw [readGeneration, if_neg (by rw [parseWith]; exact Bool.false_ne_true), readLevel_row hisRow hlevel]
      exact rfl
    | true =>
      obtain ⟨hversion, hwrite⟩ := hdates hcase
      refine @readGeneration_date (l.context files) _ _ _ _ hc rfl hwrite ?_ ?_ hlength hdate (l.generation_lt c hmem)
      · exact (if_pos hversion).trans (hfile.dates.trans (if_pos hwrite))
      · exact (if_pos hversion).trans hfile.overflow
  have hparents := readParents_row hisRow hsmall fun p hp => by
    obtain ⟨value, hvalue, hisEdge⟩ := hedge c hmem p hp
    exact ⟨value, hvalue, hisEdge.congr hchain⟩
  refine ⟨?_, ?_, ?_⟩
  · rw [loadOidFromGraph_top (Nat.le_add_left _ _), Nat.add_sub_cancel, parseWith, parseCommitGraph, hfile.lookup]
    have hcommits : (l.context files).commits = l.commits := rfl
    rw [hcommits, List.getElem?_map, hc]
    exact rfl
  · rw [loadTreeForCommit, hlayer]
    dsimp only
    rw [Nat.add_sub_cancel, parseWith, parseCommitGraph, hrow, Option.map_some, hisRow.tree]
  · rw [fillCommitInGraph, hlayer]
    dsimp only
    have hrow' : (parseWith version dates file).chunkCommitData[i]? = some row := hrow
    have hedges : (parseWith version dates file).chunkExtraEdges.getD [] = file.chunkExtraEdges.getD [] := rfl
    rw [Nat.add_sub_cancel, hrow', Option.bind_eq_bind, Option.bind_some, hgeneration, Option.bind_eq_bind,
      Option.bind_some, hedges, hparents, Option.bind_eq_bind, Option.bind_some, hdate]

lemma writeLayers_reads (hdist : IsDistribution layers)
    (hsmall : totalLayerCommits layers ≤ graphParentNone)
    (hcount : ∀ l ∈ layers, countExtraEdges l.commits < 2 ^ 31) :
    ∃ files, writeLayers layers = some files ∧ List.Forall₂ IsFileOf layers files ∧
      ∀ version dates, (dates = true → 2 ≤ version ∧ ∀ l ∈ layers, l.writeGenerationData = true) →
        ∀ l ∈ layers, ∀ c ∈ l.commits, ∃ pos < totalLayerCommits layers,
          ReadsAt (files.map (parseWith version dates)) pos c (l.number dates c.oid) := by
  induction layers with
  | nil => exact ⟨[], rfl, .nil, fun _ _ _ l hl => absurd hl List.not_mem_nil⟩
  | cons l below ih =>
    have htotal : totalLayerCommits (l :: below) = l.commits.length + totalLayerCommits below := by
      simp [totalLayerCommits]
    obtain ⟨files, hfiles, hforall, hreads⟩ := ih hdist.2.2 (by omega) fun b hb => hcount b (List.mem_cons_of_mem _ hb)
    have hsmall' : totalLayerCommits (l :: below) ≤ 2 ^ 31 := hsmall.trans (by decide)
    have hedge := fun c (hc : c ∈ l.commits) p (hp : p ∈ c.parents) => exists_edge hforall hdist hsmall' hc hp
    obtain ⟨file, hwrite, hwritten⟩ := @exists_written (l.context files) _ hedge (hcount l List.mem_cons_self)
    have hfileOf : IsFileOf l file := by
      refine ⟨hwritten.lookup, hwritten.fanout, ?_⟩
      rw [hwritten.dates]
      have hctx : (l.context files).writeGenerationData = l.writeGenerationData := rfl
      rw [hctx]
      cases l.writeGenerationData <;> rfl
    refine ⟨file :: files, ?_, .cons hfileOf hforall, fun version dates hdates l' hl' c hc => ?_⟩
    · rw [writeLayers, hfiles, Option.bind_eq_bind, Option.bind_some, hwrite]
      exact rfl
    · have hbaseTotal := totalCommits_parseWith hforall version dates
      rw [List.map_cons]
      rcases List.mem_cons.mp hl' with rfl | hl'
      · obtain ⟨i, hi, rfl⟩ := List.getElem_of_mem hc
        refine ⟨i + totalCommits (files.map (parseWith version dates)), by omega, ?_⟩
        refine readsAt_top hwritten (fun h => ⟨(hdates h).1, (hdates h).2 _ List.mem_cons_self⟩) ?_ ?_ hedge
          (List.getElem?_eq_getElem hi)
        · have hbase : (l'.context files).newBaseGraph = loadCommitGraphChain l'.generationVersion files := rfl
          rw [hbase, loadCommitGraphChain_eq, tables_parseWith hforall, tables_parseWith hforall]
        · have := totalCommits_parseWith (.cons hfileOf hforall) version dates
          rw [List.map_cons] at this
          rw [this]
          exact hsmall
      · obtain ⟨pos, hpos, hread⟩ := hreads version dates
          (fun h => ⟨(hdates h).1, fun b hb => (hdates h).2 b (List.mem_cons_of_mem _ hb)⟩) l' hl' c hc
        exact ⟨pos, by omega, hread.below (by omega)⟩

lemma all_isSome_eq (h : List.Forall₂ IsFileOf layers files) :
    files.all (·.chunkGenerationData.isSome) = layers.all (·.writeGenerationData) := by
  induction h with
  | nil => rfl
  | cons hfile _ ih => rw [List.all_cons, List.all_cons, ih, hfile.dates]

/-- Whatever the distribution over the layers, every commit reads back. -/
theorem fillCommitInGraph_written {layers : List (LayerInput rawsz)} (hdist : IsDistribution layers)
    (hsmall : totalLayerCommits layers ≤ graphParentNone)
    (hcount : ∀ l ∈ layers, countExtraEdges l.commits < 2 ^ 31) : ReadsBack layers := by
  obtain ⟨files, hfiles, hforall, hreads⟩ := writeLayers_reads hdist hsmall hcount
  refine ⟨files, hfiles, fun version l hl c hc => ?_⟩
  have hdates : (readsGenerationData version layers = true) →
      2 ≤ version ∧ ∀ l ∈ layers, l.writeGenerationData = true := fun h => by
    rw [readsGenerationData, Bool.and_eq_true, decide_eq_true_eq, List.all_eq_true] at h
    exact h
  obtain ⟨pos, -, hload, htree, hfill⟩ := hreads version _ hdates l hl c hc
  rw [loadCommitGraphChain_eq, all_isSome_eq hforall]
  exact ⟨pos, searchCommitPosInGraph_of_load (isChain_parseWith hforall hdist _ _) hload, htree, hfill⟩

/-- Two layers: a merge with an old date on top of roots, one of them with a date that needs all 64 bits. -/
def sampleLayer (parents : List ObjectId) (first : UInt8) (date : Nat) (hdate : date < 2 ^ 64) : LayerInput 2 where
  commits := [{ oid := [first, 1], tree := [0, 7], parents := parents, date := date, date_lt := hdate },
    { oid := [first, 2], tree := [0, 8], parents := [], date := 5, date_lt := by decide }]
  sorted := by simp [List.cons_lt_cons_iff]
  length_oid := by simp
  topoLevel _ := 1
  topoLevel_le := by simp [generationNumberV1Max]
  generation oid := if oid = [first, 1] then 2 ^ 63 else 6
  generation_lt c _ := by split_ifs <;> decide
  writeGenerationData := true
  generationVersion := 2
  known _ := false

theorem fillCommitInGraph_written_sample :
    ReadsBack [sampleLayer [[0, 1], [0, 2], [9, 2], [0, 1]] 9 3 (by decide), sampleLayer [] 0 (2 ^ 63) (by decide)] :=
  fillCommitInGraph_written (by
      simp only [IsDistribution, sampleLayer]
      decide) (by decide) (by simp [countExtraEdges, sampleLayer])

section ParentNone

def rootsAndChild (n i : Nat) : Commit where
  oid := beBytes 20 i
  tree := beBytes 20 0
  parents := if i = n + 1 then [beBytes 20 n] else []
  date := 0
  date_lt := by decide

def rootsLayer (n : Nat) (hn : n + 2 ≤ 2 ^ 31) : LayerInput 20 where
  commits := (List.range (n + 2)).map (rootsAndChild n)
  sorted := by
    rw [List.map_map]
    refine List.pairwise_map.mpr (List.pairwise_lt_range.imp_of_mem fun {i j} hi hj hij => ?_)
    rw [List.mem_range] at hi hj
    rw [Function.comp_apply, Function.comp_apply, rootsAndChild, rootsAndChild, beBytes_lt_iff,
      Nat.mod_eq_of_lt (by omega), Nat.mod_eq_of_lt (by omega)]
    exact hij
  length_oid c hc := by
    obtain ⟨i, -, rfl⟩ := List.mem_map.mp hc
    exact length_beBytes 20 i
  topoLevel _ := 1
  topoLevel_le _ _ := by decide
  generation _ := 1
  generation_lt _ _ := by decide
  writeGenerationData := false
  generationVersion := 2
  known _ := false

lemma rootsLayer_distribution (n : Nat) (hn : n + 2 ≤ 2 ^ 31) : IsDistribution [rootsLayer n hn] := by
  refine ⟨fun _ _ b hb => absurd hb List.not_mem_nil, fun c hc p hp => ⟨_, List.mem_cons_self, ?_⟩, trivial⟩
  obtain ⟨i, -, rfl⟩ := List.mem_map.mp hc
  rw [rootsAndChild] at hp
  dsimp only at hp
  split_ifs at hp
  · rw [List.mem_singleton.mp hp]
    exact List.mem_map_of_mem (List.mem_map_of_mem (f := rootsAndChild n) (List.mem_range.mpr (show n < n + 2 by omega)))
  · cases hp

lemma rootsLayer_lost (n : Nat) (hn : n + 2 ≤ 2 ^ 31) (hnone : n = graphParentNone) : ¬ ReadsBack [rootsLayer n hn] := by
  rintro ⟨files, hfiles, hreads⟩
  set l := rootsLayer n hn with hl
  have hcommits : ∀ i < n + 2, l.commits[i]? = some (rootsAndChild n i) := by
    intro i hi
    rw [hl, rootsLayer, List.getElem?_map, List.getElem?_range hi]
    exact rfl
  have hlength : l.commits.length = n + 2 := by rw [hl, rootsLayer, List.length_map, List.length_range]
  have hdist : IsDistribution [l] := rootsLayer_distribution n hn
  have htotal : totalLayerCommits [l] ≤ 2 ^ 31 := by
    rw [totalLayerCommits, List.map_singleton, List.sum_singleton, hlength]
    exact hn
  have hcount : countExtraEdges l.commits = 0 := by
    rw [countExtraEdges, List.sum_eq_zero_iff]
    intro k hk
    obtain ⟨c, hc, rfl⟩ := List.mem_map.mp hk
    obtain ⟨i, -, rfl⟩ := List.mem_map.mp hc
    rw [rootsAndChild]
    dsimp only
    split_ifs <;> simp_all
  have hedge := fun c (hc : c ∈ l.commits) p (hp : p ∈ c.parents) => @exists_edge _ l [] [] .nil hdist htotal c hc p hp
  have hfew : countExtraEdges (l.context []).commits < 2 ^ 31 := hcount.trans_lt (by decide)
  obtain ⟨file, hwrite, hwritten⟩ := exists_written hedge hfew
  obtain ⟨row, hrow, hisRow⟩ := hwritten.row (n + 1) _ (hcommits (n + 1) (by omega))
  have hparents : (rootsAndChild n (n + 1)).parents = [beBytes 20 n] := if_pos rfl
  -- The edge to the parent is the number that stands for no parent.
  have hfirst : row.firstEdge = graphParentNone := by
    obtain ⟨value, hvalue, -, -, hload⟩ := hedge _ (List.mem_of_getElem? (hcommits (n + 1) (by omega))) (beBytes 20 n)
      (by rw [hparents]; simp)
    have hedgeFirst := hisRow.first
    rw [firstEdgeValue, hparents] at hedgeFirst
    dsimp only at hedgeFirst
    rw [hvalue, Option.some_inj] at hedgeFirst
    rw [← hedgeFirst, ← hnone]
    have htop : loadOidFromGraph (l.nameTable :: (l.context []).newBaseGraph) n = some (beBytes 20 n) := by
      rw [loadOidFromGraph_top (Nat.zero_le _)]
      have : l.nameTable.chunkOidLookup = l.commits.map Commit.oid := rfl
      rw [this, List.getElem?_map]
      exact congrArg _ (hcommits n (by omega))
    rw [loadOidFromGraph_top (Nat.zero_le _)] at hload htop
    exact l.isTable.getElem?_inj hload htop
  have hlookup : file.chunkOidLookup[n + 1]? = some (rootsAndChild n (n + 1)).oid := by
    rw [hwritten.lookup, List.getElem?_map]
    exact congrArg _ (hcommits (n + 1) (by omega))
  obtain rfl : files = [file] := by
    rw [writeLayers, writeLayers, Option.bind_eq_bind, Option.bind_some, hwrite] at hfiles
    exact (Option.some_inj.mp hfiles).symm
  obtain ⟨pos, hsearch, -, hfill⟩ := hreads 0 l List.mem_cons_self _ (List.mem_of_getElem? (hcommits (n + 1) (by omega)))
  have hchain : IsChain 20 (loadCommitGraphChain 0 [file]) := by
    rw [loadCommitGraphChain_eq]
    refine isChain_parseWith (.cons ⟨hwritten.lookup, hwritten.fanout, ?_⟩ .nil) hdist _ _
    rw [hwritten.dates]
    exact rfl
  have hload : loadOidFromGraph (loadCommitGraphChain 0 [file]) (n + 1) = some (rootsAndChild n (n + 1)).oid := by
    rw [loadCommitGraphChain_eq, List.map_singleton, loadOidFromGraph_top (Nat.zero_le _)]
    exact hlookup
  have hsearch' := searchCommitPosInGraph_of_load hchain hload
  rw [hsearch', Option.some_inj] at hsearch
  rw [← hsearch, loadCommitGraphChain_eq, List.map_singleton, fillCommitInGraph, layerAt_top (Nat.zero_le _)] at hfill
  have hrow' : (parseWith 0 false file).chunkCommitData[n + 1]? = some row := hrow
  have hgeneration : readGeneration (parseWith 0 false file) (n + 1) row = some (row.packedDate0 >>> 2) :=
    if_neg Bool.false_ne_true
  have hnil : ∀ edges, readParents [parseWith 0 false file] edges row = some [] := fun edges => if_pos hfirst
  have hdates : (decide (2 ≤ 0) && [file].all (·.chunkGenerationData.isSome)) = false := rfl
  dsimp only at hfill
  have hpos : n + 1 - totalCommits [] = n + 1 := rfl
  rw [hdates, hpos, hrow', Option.bind_eq_bind, Option.bind_some, hgeneration, Option.bind_eq_bind, Option.bind_some, hnil,
    Option.bind_eq_bind, Option.bind_some, Option.some_inj, FilledCommit.mk.injEq, hparents] at hfill
  exact List.cons_ne_nil _ _ hfill.1.symm

/-- A history whose parent at position `0x70000000` is lost. -/
theorem fillCommitInGraph_written_parentNone :
    ∃ layers : List (LayerInput 20), IsDistribution layers ∧ ¬ ReadsBack layers :=
  ⟨[rootsLayer graphParentNone (by decide)], rootsLayer_distribution _ _, rootsLayer_lost _ _ rfl⟩

end ParentNone

end Read

end GitCore.Graph
