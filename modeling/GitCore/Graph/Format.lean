import GitCore.Graph.Lookup

/-!
# Commit-graph files

The chunks that `write_commit_graph_file` writes for one layer of a chain, and the functions that
read a commit back from a chain of layers. A chain is the list of its layers, the topmost first.
-/

namespace GitCore.Graph

def graphExtraEdgesNeeded : Nat := 0x80000000

def graphEdgeLastMask : Nat := 0x7fffffff

def graphParentNone : Nat := 0x70000000

def graphLastEdge : Nat := 0x80000000

def correctedCommitDateOffsetOverflow : Nat := 2 ^ 31

def generationNumberV2OffsetMax : Nat := 2 ^ 31 - 1

/-- A commit object; its date is a `timestamp_t`. -/
structure Commit where
  oid : ObjectId
  tree : ObjectId
  parents : List ObjectId
  date : Nat
  date_lt : date < 2 ^ 64

/-- One row of the "CDAT" chunk: the tree, two edges and the two words with level and date. -/
structure CommitData where
  tree : ObjectId
  firstEdge : Nat
  secondEdge : Nat
  packedDate0 : Nat
  packedDate1 : Nat

structure GraphFile where
  chunkOidFanout : List Nat
  chunkOidLookup : List ObjectId
  chunkCommitData : List CommitData
  chunkGenerationData : Option (List Nat)
  chunkGenerationDataOverflow : Option (List (Nat × Nat))
  chunkExtraEdges : Option (List Nat)

structure CommitGraph extends GraphFile where
  readGenerationData : Bool

def CommitGraph.numCommits (g : CommitGraph) : Nat := g.chunkOidLookup.length

/-- The commits of a chain; `num_commits_in_base` of a layer is that of the layers below it. -/
def totalCommits (chain : List CommitGraph) : Nat :=
  (chain.map CommitGraph.numCommits).sum

section Load

def parseCommitGraph (generationVersion : Nat) (file : GraphFile) : CommitGraph where
  chunkOidFanout := file.chunkOidFanout
  chunkOidLookup := file.chunkOidLookup
  chunkCommitData := file.chunkCommitData
  chunkGenerationData := if 2 ≤ generationVersion then file.chunkGenerationData else none
  chunkGenerationDataOverflow := if 2 ≤ generationVersion then file.chunkGenerationDataOverflow else none
  chunkExtraEdges := file.chunkExtraEdges
  readGenerationData := decide (2 ≤ generationVersion) && file.chunkGenerationData.isSome

def validateMixedGenerationChain (g : List CommitGraph) : List CommitGraph × Bool :=
  if g.all (·.readGenerationData) then (g, true)
  else (g.map fun p => { p with readGenerationData := false }, false)

def loadCommitGraphChain (generationVersion : Nat) (files : List GraphFile) : List CommitGraph :=
  (validateMixedGenerationChain (files.map (parseCommitGraph generationVersion))).1

end Load

section Positions

def searchCommitPosInGraph (id : ObjectId) : List CommitGraph → Option Nat
  | [] => none
  | g :: base =>
    match bsearchHash g.chunkOidFanout g.chunkOidLookup id with
    | some lexIndex => some (lexIndex + totalCommits base)
    | none => searchCommitPosInGraph id base

/-- `graphPosition` is what is known of a commit that was already looked up in the chain. -/
def findCommitPosInGraph (graphPosition : ObjectId → Option Nat) (item : ObjectId) (g : List CommitGraph) : Option Nat :=
  match graphPosition item with
  | some pos => some pos
  | none => searchCommitPosInGraph item g

def layerAt (pos : Nat) : List CommitGraph → List CommitGraph
  | [] => []
  | g :: base => if pos < totalCommits base then layerAt pos base else g :: base

def loadOidFromGraph (g : List CommitGraph) (pos : Nat) : Option ObjectId :=
  match layerAt pos g with
  | [] => none
  | g :: base => g.chunkOidLookup[pos - totalCommits base]?

end Positions

section Write

structure WriteContext where
  rawsz : Nat
  commits : List Commit
  topoLevel : ObjectId → Nat
  generation : ObjectId → Nat
  graphPosition : ObjectId → Option Nat
  writeGenerationData : Bool
  newBaseGraph : List CommitGraph

variable (ctx : WriteContext)

/-- The position of a parent. There is none when the parent is missing; positions are `int`. -/
def edgeValue (parent : ObjectId) : Option Nat :=
  let pos := oidPos ctx.rawsz (ctx.commits.map Commit.oid) parent
  let value :=
    if 0 ≤ pos then some (pos.toNat + totalCommits ctx.newBaseGraph)
    else findCommitPosInGraph ctx.graphPosition parent ctx.newBaseGraph
  value.filter (· < 2 ^ 31)

def firstEdgeValue (c : Commit) : Option Nat :=
  match c.parents with
  | [] => some graphParentNone
  | p :: _ => edgeValue ctx p

def secondEdgeValue (numExtraEdges : Nat) (c : Commit) : Option Nat :=
  match c.parents with
  | [] => some graphParentNone
  | [_] => some graphParentNone
  | [_, p] => edgeValue ctx p
  | _ :: _ :: _ :: _ => some (graphExtraEdgesNeeded ||| numExtraEdges)

def packedDate0 (c : Commit) : Nat :=
  c.date >>> 32 &&& 0x3 ||| ctx.topoLevel c.oid <<< 2 % 2 ^ 32

/-- The rows for a list of commits, after `numExtraEdges` edges of other commits. -/
def writeGraphChunkData : Nat → List Commit → Option (List CommitData)
  | _, [] => some []
  | numExtraEdges, c :: list => do
    let first ← firstEdgeValue ctx c
    let second ← secondEdgeValue ctx numExtraEdges c
    let rows ← writeGraphChunkData
      (if second &&& graphExtraEdgesNeeded ≠ 0 then numExtraEdges + (c.parents.length - 1) else numExtraEdges) list
    some ({ tree := c.tree, firstEdge := first, secondEdge := second,
            packedDate0 := packedDate0 ctx c, packedDate1 := c.date % 2 ^ 32 } :: rows)

def computeGenerationOffset (c : Commit) : Nat :=
  (ctx.generation c.oid + (2 ^ 64 - (c.date &&& 2 ^ 34 - 1))) % 2 ^ 64

/-- The words for a list of commits, after `overflows` commits that need the overflow chunk. -/
def writeGraphChunkGenerationData : Nat → List Commit → List Nat
  | _, [] => []
  | overflows, c :: list =>
    if generationNumberV2OffsetMax < computeGenerationOffset ctx c then
      (correctedCommitDateOffsetOverflow ||| overflows) :: writeGraphChunkGenerationData (overflows + 1) list
    else computeGenerationOffset ctx c :: writeGraphChunkGenerationData overflows list

def writeGraphChunkGenerationDataOverflow : List Commit → List (Nat × Nat)
  | [] => []
  | c :: list =>
    if generationNumberV2OffsetMax < computeGenerationOffset ctx c then
      (computeGenerationOffset ctx c >>> 32, computeGenerationOffset ctx c % 2 ^ 32) ::
        writeGraphChunkGenerationDataOverflow list
    else writeGraphChunkGenerationDataOverflow list

def writeParentEdges : List ObjectId → Option (List Nat)
  | [] => some []
  | p :: next => do
    let value ← edgeValue ctx p
    let edges ← writeParentEdges next
    some ((if next.isEmpty then value ||| graphLastEdge else value) :: edges)

def writeGraphChunkExtraEdges : List Commit → Option (List Nat)
  | [] => some []
  | c :: list =>
    if c.parents.length ≤ 2 then writeGraphChunkExtraEdges list
    else do
      let edges ← writeParentEdges ctx c.parents.tail
      let rest ← writeGraphChunkExtraEdges list
      some (edges ++ rest)

/-- The edges that octopus merges need, as `sort_and_scan_merged_commits` counts them. -/
def countExtraEdges (commits : List Commit) : Nat :=
  (commits.map fun c => if 2 < c.parents.length then c.parents.length - 1 else 0).sum

/-- The commits with a large offset, as `compute_generation_numbers` counts them. -/
def numGenerationDataOverflows : Nat :=
  if ctx.writeGenerationData then
    ctx.commits.countP fun c => generationNumberV2OffsetMax < computeGenerationOffset ctx c
  else 0

/-- The chunks of the layer. The edges are counted in an `int`, from which the size of their chunk comes. -/
def writeCommitGraphFile : Option GraphFile := do
  guard (countExtraEdges ctx.commits < 2 ^ 31)
  let data ← writeGraphChunkData ctx 0 ctx.commits
  let edges ← writeGraphChunkExtraEdges ctx ctx.commits
  some { chunkOidFanout := writeGraphChunkFanout (ctx.commits.map Commit.oid)
         chunkOidLookup := ctx.commits.map Commit.oid
         chunkCommitData := data
         chunkGenerationData :=
           if ctx.writeGenerationData then some (writeGraphChunkGenerationData ctx 0 ctx.commits) else none
         chunkGenerationDataOverflow :=
           if numGenerationDataOverflows ctx ≠ 0 then some (writeGraphChunkGenerationDataOverflow ctx ctx.commits)
           else none
         chunkExtraEdges := if countExtraEdges ctx.commits ≠ 0 then some edges else none }

end Write

section Read

structure FilledCommit where
  parents : List ObjectId
  date : Nat
  generation : Nat
  deriving DecidableEq

def insertParentOrDie (g : List CommitGraph) (pos : Nat) : Option ObjectId :=
  if totalCommits g ≤ pos then none else loadOidFromGraph g pos

def readExtraEdges (g : List CommitGraph) : List Nat → Option (List ObjectId)
  | [] => none
  | value :: edges => do
    let parent ← insertParentOrDie g (value &&& graphEdgeLastMask)
    if value &&& graphLastEdge ≠ 0 then some [parent]
    else do
      let parents ← readExtraEdges g edges
      some (parent :: parents)

def readParents (g : List CommitGraph) (extraEdges : List Nat) (row : CommitData) : Option (List ObjectId) :=
  if row.firstEdge = graphParentNone then some []
  else do
    let first ← insertParentOrDie g row.firstEdge
    if row.secondEdge = graphParentNone then some [first]
    else if row.secondEdge &&& graphExtraEdgesNeeded = 0 then do
      let second ← insertParentOrDie g row.secondEdge
      some [first, second]
    else do
      let parents ← readExtraEdges g (extraEdges.drop (row.secondEdge &&& graphEdgeLastMask))
      some (first :: parents)

def readDate (row : CommitData) : Nat :=
  (row.packedDate0 &&& 0x3) <<< 32 ||| row.packedDate1

def readGeneration (g : CommitGraph) (lexIndex : Nat) (row : CommitData) : Option Nat :=
  if g.readGenerationData then do
    let offset ← (g.chunkGenerationData.getD [])[lexIndex]?
    if offset &&& correctedCommitDateOffsetOverflow ≠ 0 then do
      let overflow ← g.chunkGenerationDataOverflow
      let words ← overflow[offset ^^^ correctedCommitDateOffsetOverflow]?
      some ((readDate row + (words.1 <<< 32 ||| words.2)) % 2 ^ 64)
    else some (readDate row + offset)
  else some (row.packedDate0 >>> 2)

def fillCommitInGraph (g : List CommitGraph) (pos : Nat) : Option FilledCommit :=
  match layerAt pos g with
  | [] => none
  | g :: base => do
    let row ← g.chunkCommitData[pos - totalCommits base]?
    let generation ← readGeneration g (pos - totalCommits base) row
    let parents ← readParents (g :: base) (g.chunkExtraEdges.getD []) row
    some { parents := parents, date := readDate row, generation := generation }

def loadTreeForCommit (g : List CommitGraph) (pos : Nat) : Option ObjectId :=
  match layerAt pos g with
  | [] => none
  | g :: base => (g.chunkCommitData[pos - totalCommits base]?).map CommitData.tree

end Read

end GitCore.Graph
