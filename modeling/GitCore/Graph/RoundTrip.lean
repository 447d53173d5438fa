import GitCore.Graph.Format
import Mathlib.Data.Nat.Bitwise

/-!
# Reading a commit-graph chain back

Commits that are distributed over the layers of a chain are read back with their trees, parents,
dates and generation numbers.
-/

namespace GitCore.Graph

section Words

lemma and_extra_eq_zero {v : Nat} (h : v < 2 ^ 31) : v &&& 2 ^ 31 = 0 := by
  rw [Nat.and_two_pow, Nat.testBit_lt_two_pow h]
  rfl

lemma or_extra_and (n : Nat) : (2 ^ 31 ||| n) &&& 2 ^ 31 ≠ 0 := by
  rw [Nat.and_two_pow, Nat.testBit_or, Nat.testBit_two_pow_self, Bool.true_or]
  decide

lemma or_extra_mask {n : Nat} (h : n < 2 ^ 31) : (2 ^ 31 ||| n) &&& 2 ^ 31 - 1 = n := by
  rw [Nat.and_two_pow_sub_one_eq_mod, ← Nat.mul_one (2 ^ 31), ← Nat.two_pow_add_eq_or_of_lt h, Nat.mul_one,
    Nat.add_mod_left, Nat.mod_eq_of_lt h]

lemma or_extra_xor {n : Nat} (h : n < 2 ^ 31) : (2 ^ 31 ||| n) ^^^ 2 ^ 31 = n := by
  apply Nat.eq_of_testBit_eq
  intro i
  rw [Nat.testBit_xor, Nat.testBit_or, Nat.testBit_two_pow]
  by_cases hi : 31 = i
  · rw [← hi, Nat.testBit_lt_two_pow h]
    simp
  · simp [hi]

lemma or_low {a b i : Nat} (h : b < 2 ^ i) : b ||| a <<< i = 2 ^ i * a + b := by
  rw [Nat.or_comm, Nat.shiftLeft_eq, Nat.mul_comm, Nat.two_pow_add_eq_or_of_lt h]

end Words

section Chain

variable {rawsz : Nat}

inductive IsChain (rawsz : Nat) : List CommitGraph → Prop
  | nil : IsChain rawsz []
  | cons {g : CommitGraph} {base : List CommitGraph} (table : IsTable rawsz g.chunkOidLookup)
      (fanout : g.chunkOidFanout = writeGraphChunkFanout g.chunkOidLookup)
      (disjoint : ∀ h ∈ base, ∀ oid ∈ g.chunkOidLookup, oid ∉ h.chunkOidLookup)
      (below : IsChain rawsz base) : IsChain rawsz (g :: base)

lemma totalCommits_cons (g : CommitGraph) (base : List CommitGraph) :
    totalCommits (g :: base) = g.numCommits + totalCommits base := by
  simp [totalCommits]

variable {pos : Nat}

lemma layerAt_base {g : CommitGraph} {base : List CommitGraph} (h : pos < totalCommits base) :
    layerAt pos (g :: base) = layerAt pos base := if_pos h

lemma layerAt_top {g : CommitGraph} {base : List CommitGraph} (h : totalCommits base ≤ pos) :
    layerAt pos (g :: base) = g :: base := if_neg (not_lt.mpr h)

lemma loadOidFromGraph_base {g : CommitGraph} {base : List CommitGraph} (h : pos < totalCommits base) :
    loadOidFromGraph (g :: base) pos = loadOidFromGraph base pos := by
  rw [loadOidFromGraph, layerAt_base h, ← loadOidFromGraph]

lemma loadOidFromGraph_top {g : CommitGraph} {base : List CommitGraph} (h : totalCommits base ≤ pos) :
    loadOidFromGraph (g :: base) pos = g.chunkOidLookup[pos - totalCommits base]? := by
  rw [loadOidFromGraph, layerAt_top h]

variable {chain : List CommitGraph}

lemma mem_of_loadOidFromGraph {oid : ObjectId}
    (h : loadOidFromGraph chain pos = some oid) : ∃ g ∈ chain, oid ∈ g.chunkOidLookup := by
  induction chain with
  | nil => cases h
  | cons g base ih =>
    rcases lt_or_ge pos (totalCommits base) with hpos | hpos
    · rw [loadOidFromGraph_base hpos] at h
      obtain ⟨g', hg', hmem⟩ := ih h
      exact ⟨g', List.mem_cons_of_mem _ hg', hmem⟩
    · rw [loadOidFromGraph_top hpos] at h
      exact ⟨g, List.mem_cons_self, List.mem_of_getElem? h⟩

lemma exists_loadOidFromGraph {g : CommitGraph} {oid : ObjectId} (hg : g ∈ chain)
    (h : oid ∈ g.chunkOidLookup) : ∃ pos < totalCommits chain, loadOidFromGraph chain pos = some oid := by
  induction chain with
  | nil => cases hg
  | cons top base ih =>
    rcases List.mem_cons.mp hg with rfl | hg
    · obtain ⟨i, hi, rfl⟩ := List.getElem_of_mem h
      refine ⟨i + totalCommits base, ?_, ?_⟩
      · rw [totalCommits_cons, CommitGraph.numCommits]
        omega
      · rw [loadOidFromGraph_top (by omega), Nat.add_sub_cancel, List.getElem?_eq_getElem hi]
    · obtain ⟨pos, hpos, hload⟩ := ih hg
      refine ⟨pos, ?_, by rw [loadOidFromGraph_base hpos, hload]⟩
      rw [totalCommits_cons]
      omega

lemma searchCommitPosInGraph_of_load (hchain : IsChain rawsz chain) {pos : Nat} {oid : ObjectId}
    (h : loadOidFromGraph chain pos = some oid) : searchCommitPosInGraph oid chain = some pos := by
  induction hchain with
  | nil => cases h
  | @cons g base table fanout disjoint below ih =>
    rw [searchCommitPosInGraph, fanout]
    rcases lt_or_ge pos (totalCommits base) with hpos | hpos
    · rw [loadOidFromGraph_base hpos] at h
      obtain ⟨g', hg', hmem⟩ := mem_of_loadOidFromGraph h
      rw [(bsearchHash_spec table oid).2 fun hout => disjoint g' hg' oid hout hmem]
      exact ih h
    · rw [loadOidFromGraph_top hpos] at h
      rw [(bsearchHash_spec table oid).1 _ h]
      simp only [Option.some_inj]
      omega

lemma insertParentOrDie_of_load {oid : ObjectId}
    (h : loadOidFromGraph chain pos = some oid) : insertParentOrDie chain pos = some oid := by
  rw [insertParentOrDie, if_neg, h]
  rw [not_le]
  cases chain with
  | nil => cases h
  | cons g base =>
    rw [totalCommits_cons]
    rcases lt_or_ge pos (totalCommits base) with hpos | hpos
    · omega
    · rw [loadOidFromGraph_top hpos] at h
      have := (List.getElem?_eq_some_iff.mp h).1
      rw [CommitGraph.numCommits]
      omega

end Chain

section Edges

variable {ctx : WriteContext} {chain : List CommitGraph}

structure IsLayer (ctx : WriteContext) (g : CommitGraph) : Prop where
  lookup : g.chunkOidLookup = ctx.commits.map Commit.oid
  known : ∀ oid pos, ctx.graphPosition oid = some pos → searchCommitPosInGraph oid ctx.newBaseGraph = some pos
  chain : IsChain ctx.rawsz (g :: ctx.newBaseGraph)
  small : totalCommits (g :: ctx.newBaseGraph) ≤ 2 ^ 31

def IsEdge (chain : List CommitGraph) (value : Nat) (oid : ObjectId) : Prop :=
  value < 2 ^ 31 ∧ value < totalCommits chain ∧ loadOidFromGraph chain value = some oid

lemma edgeValue_isEdge {g : CommitGraph} (h : IsLayer ctx g) {p : ObjectId} (hlen : p.length = ctx.rawsz)
    (hp : ∃ l ∈ g :: ctx.newBaseGraph, p ∈ l.chunkOidLookup) :
    ∃ value, edgeValue ctx p = some value ∧ IsEdge (g :: ctx.newBaseGraph) value p := by
  obtain ⟨table, -, disjoint, below⟩ : IsTable ctx.rawsz g.chunkOidLookup ∧ True ∧
      (∀ l ∈ ctx.newBaseGraph, ∀ oid ∈ g.chunkOidLookup, oid ∉ l.chunkOidLookup) ∧ IsChain ctx.rawsz ctx.newBaseGraph := by
    cases h.chain with
    | cons table _ disjoint below => exact ⟨table, trivial, disjoint, below⟩
  have hsmall := h.small
  rw [totalCommits_cons, CommitGraph.numCommits] at hsmall
  rw [edgeValue, ← h.lookup]
  obtain ⟨l, hl, hmem⟩ := hp
  rcases List.mem_cons.mp hl with rfl | hl
  · obtain ⟨i, hi, rfl⟩ := List.getElem_of_mem hmem
    have hpos := (oidPos_spec table hlen).1 i (List.getElem?_eq_getElem hi)
    refine ⟨i + totalCommits ctx.newBaseGraph, ?_, by omega, ?_, ?_⟩
    · rw [hpos, if_pos (Int.natCast_nonneg i), Int.toNat_natCast, Option.filter_some]
      exact if_pos (decide_eq_true (by omega))
    · rw [totalCommits_cons, CommitGraph.numCommits]
      omega
    · rw [loadOidFromGraph_top (by omega), Nat.add_sub_cancel, List.getElem?_eq_getElem hi]
  · obtain ⟨pos, hpos, hload⟩ := exists_loadOidFromGraph hl hmem
    have hneg := (oidPos_spec table hlen).2 fun hin => disjoint l hl p hin hmem
    have hsearch := searchCommitPosInGraph_of_load below hload
    have hfind : findCommitPosInGraph ctx.graphPosition p ctx.newBaseGraph = some pos := by
      rw [findCommitPosInGraph]
      cases hknown : ctx.graphPosition p with
      | none => exact hsearch
      | some pos' => rw [← hsearch, h.known p pos' hknown]
    refine ⟨pos, ?_, by omega, ?_, by rw [loadOidFromGraph_base hpos, hload]⟩
    · rw [if_neg (not_le.mpr hneg), hfind, Option.filter_some]
      exact if_pos (decide_eq_true (by omega))
    · rw [totalCommits_cons]
      omega

lemma writeParentEdges_read {parents : List ObjectId} (hne : parents ≠ [])
    (hedge : ∀ p ∈ parents, ∃ value, edgeValue ctx p = some value ∧ IsEdge chain value p) :
    ∃ edges, writeParentEdges ctx parents = some edges ∧ edges.length = parents.length ∧
      ∀ rest, readExtraEdges chain (edges ++ rest) = some parents := by
  induction parents with
  | nil => exact absurd rfl hne
  | cons p next ih =>
    obtain ⟨value, hvalue, hlt, -, hload⟩ := hedge p List.mem_cons_self
    have hmask : value &&& graphEdgeLastMask = value := Nat.and_two_pow_sub_one_of_lt_two_pow (n := 31) hlt
    have hparent := insertParentOrDie_of_load hload
    cases next with
    | nil =>
      refine ⟨[value ||| graphLastEdge], by rw [writeParentEdges, writeParentEdges, hvalue]; rfl, rfl, fun rest => ?_⟩
      have hlast : (value ||| graphLastEdge) &&& graphLastEdge ≠ 0 := by
        rw [Nat.or_comm]
        exact or_extra_and value
      have hpos : (value ||| graphLastEdge) &&& graphEdgeLastMask = value := by
        rw [Nat.or_comm]
        exact or_extra_mask hlt
      rw [List.singleton_append, readExtraEdges, hpos, hparent, Option.bind_eq_bind, Option.bind_some, if_pos hlast]
    | cons q next =>
      obtain ⟨edges, hwrite, hlen, hread⟩ := ih (List.cons_ne_nil _ _) fun r hr => hedge r (List.mem_cons_of_mem _ hr)
      refine ⟨value :: edges, ?_, by simp [hlen], fun rest => ?_⟩
      · rw [writeParentEdges, hvalue, hwrite]
        exact rfl
      · have hnot : ¬ value &&& graphLastEdge ≠ 0 := not_not.mpr (and_extra_eq_zero hlt)
        rw [List.cons_append, readExtraEdges, hmask, hparent, Option.bind_eq_bind, Option.bind_some, if_neg hnot,
          hread rest]
        exact rfl

end Edges

section Rows

variable {ctx : WriteContext}

lemma edgeValue_lt {p : ObjectId} {value : Nat} (h : edgeValue ctx p = some value) : value < 2 ^ 31 :=
  of_decide_eq_true (Option.filter_eq_some_iff.mp h).2

lemma secondEdgeValue_flag {n value : Nat} {c : Commit} (h : secondEdgeValue ctx n c = some value) :
    value &&& graphExtraEdgesNeeded ≠ 0 ↔ 2 < c.parents.length := by
  rw [secondEdgeValue] at h
  split at h <;> rename_i hparents <;> rw [hparents]
  · cases h
    exact ⟨fun hflag => absurd rfl hflag, fun hlen => by simp at hlen⟩
  · cases h
    exact ⟨fun hflag => absurd rfl hflag, fun hlen => by simp at hlen⟩
  · exact ⟨fun hflag => absurd (and_extra_eq_zero (edgeValue_lt h)) hflag, fun hlen => by simp at hlen⟩
  · cases h
    exact ⟨fun _ => by simp, fun _ => or_extra_and n⟩

structure IsRow (ctx : WriteContext) (edges : List Nat) (c : Commit) (row : CommitData) : Prop where
  tree : row.tree = c.tree
  date0 : row.packedDate0 = packedDate0 ctx c
  date1 : row.packedDate1 = c.date % 2 ^ 32
  first : firstEdgeValue ctx c = some row.firstEdge
  second : ∃ k, secondEdgeValue ctx k c = some row.secondEdge ∧ (2 < c.parents.length → k < 2 ^ 31 ∧
    ∃ own rest, writeParentEdges ctx c.parents.tail = some own ∧ edges.drop k = own ++ rest)

lemma writeChunks_spec {list : List Commit} (n : Nat) (before : List Nat) (hn : before.length = n)
    (hsmall : n + countExtraEdges list < 2 ^ 31)
    (hedge : ∀ c ∈ list, ∀ p ∈ c.parents, (edgeValue ctx p).isSome)
    (htail : ∀ c ∈ list, ∃ own, writeParentEdges ctx c.parents.tail = some own ∧ own.length = c.parents.tail.length) :
    ∃ rows edges, writeGraphChunkData ctx n list = some rows ∧ writeGraphChunkExtraEdges ctx list = some edges ∧
      edges.length = countExtraEdges list ∧
      ∀ (i : Nat) (c : Commit), list[i]? = some c → ∃ row, rows[i]? = some row ∧ IsRow ctx (before ++ edges) c row := by
  induction list generalizing n before with
  | nil => exact ⟨[], [], rfl, rfl, rfl, fun i c h => by simp at h⟩
  | cons c list ih =>
    obtain ⟨own, hown, hownLen⟩ := htail c List.mem_cons_self
    have hcount : countExtraEdges (c :: list) =
        (if 2 < c.parents.length then c.parents.length - 1 else 0) + countExtraEdges list := by
      simp [countExtraEdges]
    obtain ⟨first, hfirst⟩ : ∃ v, firstEdgeValue ctx c = some v := by
      rw [firstEdgeValue]
      split
      · exact ⟨_, rfl⟩
      · rename_i p _ hp
        exact Option.isSome_iff_exists.mp (hedge c List.mem_cons_self p (by rw [hp]; simp))
    obtain ⟨second, hsecond⟩ : ∃ v, secondEdgeValue ctx n c = some v := by
      rw [secondEdgeValue]
      split
      · exact ⟨_, rfl⟩
      · exact ⟨_, rfl⟩
      · rename_i _ p hp
        exact Option.isSome_iff_exists.mp (hedge c List.mem_cons_self p (by rw [hp]; simp))
      · exact ⟨_, rfl⟩
    have hflag := secondEdgeValue_flag hsecond
    let row : CommitData := { tree := c.tree, firstEdge := first, secondEdge := second,
                              packedDate0 := packedDate0 ctx c, packedDate1 := c.date % 2 ^ 32 }
    rw [hcount] at hsmall
    by_cases hocto : 2 < c.parents.length
    · rw [if_pos hocto] at hsmall hcount
      have hbeforeLen : (before ++ own).length = n + (c.parents.length - 1) := by
        rw [List.length_append, hn, hownLen, List.length_tail]
      obtain ⟨rows, edges, hrows, hedges, hlen, hspec⟩ := ih (n + (c.parents.length - 1)) (before ++ own) hbeforeLen
        (by omega) (fun d hd => hedge d (List.mem_cons_of_mem _ hd)) (fun d hd => htail d (List.mem_cons_of_mem _ hd))
      refine ⟨row :: rows, own ++ edges, ?_, ?_, ?_, fun i d hd => ?_⟩
      · rw [writeGraphChunkData, hfirst, hsecond, Option.bind_eq_bind, Option.bind_some, Option.bind_eq_bind,
          Option.bind_some, if_pos (hflag.mpr hocto), hrows]
        exact rfl
      · rw [writeGraphChunkExtraEdges, if_neg (by omega), hown, hedges]
        exact rfl
      · rw [List.length_append, hlen, hcount, hownLen, List.length_tail]
      · cases i with
        | zero =>
          rw [List.getElem?_cons_zero, Option.some_inj] at hd
          subst hd
          refine ⟨row, rfl, rfl, rfl, rfl, hfirst, n, hsecond, fun _ => ⟨by omega, own, edges, hown, ?_⟩⟩
          rw [← hn, List.drop_left]
        | succ i =>
          rw [← List.append_assoc]
          exact hspec i d hd
    · rw [if_neg hocto] at hsmall hcount
      obtain ⟨rows, edges, hrows, hedges, hlen, hspec⟩ := ih n before hn
        (by omega) (fun d hd => hedge d (List.mem_cons_of_mem _ hd)) (fun d hd => htail d (List.mem_cons_of_mem _ hd))
      refine ⟨row :: rows, edges, ?_, ?_, ?_, fun i d hd => ?_⟩
      · rw [writeGraphChunkData, hfirst, hsecond, Option.bind_eq_bind, Option.bind_some, Option.bind_eq_bind,
          Option.bind_some, if_neg (fun h => hocto (hflag.mp h)), hrows]
        exact rfl
      · rw [writeGraphChunkExtraEdges, if_pos (by omega), hedges]
      · rw [hlen, hcount, Nat.zero_add]
      · cases i with
        | zero =>
          rw [List.getElem?_cons_zero, Option.some_inj] at hd
          subst hd
          exact ⟨row, rfl, rfl, rfl, rfl, hfirst, n, hsecond, fun h => absurd h hocto⟩
        | succ i => exact hspec i d hd

lemma readParents_row {edges : List Nat} {c : Commit} {row : CommitData}
    (hrow : IsRow ctx edges c row) (htotal : totalCommits chain ≤ graphParentNone)
    (hedge : ∀ p ∈ c.parents, ∃ value, edgeValue ctx p = some value ∧ IsEdge chain value p) :
    readParents chain edges row = some c.parents := by
  obtain ⟨k, hsecond, hlist⟩ := hrow.second
  have hfirst := hrow.first
  rw [firstEdgeValue] at hfirst
  rw [secondEdgeValue] at hsecond
  have hposition : ∀ {p value}, p ∈ c.parents → edgeValue ctx p = some value →
      value < 2 ^ 31 ∧ value ≠ graphParentNone ∧ insertParentOrDie chain value = some p := by
    intro p value hp hvalue
    obtain ⟨value', hvalue', hlt, htot, hload⟩ := hedge p hp
    obtain rfl := Option.some_inj.mp (hvalue.symm.trans hvalue')
    exact ⟨hlt, (htot.trans_le htotal).ne, insertParentOrDie_of_load hload⟩
  rw [readParents]
  match hparents : c.parents with
  | [] =>
    rw [hparents] at hfirst
    rw [if_pos (Option.some_inj.mp hfirst).symm]
  | [p] =>
    rw [hparents] at hfirst hsecond
    obtain ⟨-, hne, hp⟩ := hposition (by rw [hparents]; simp) hfirst
    rw [if_neg hne, hp, Option.bind_eq_bind, Option.bind_some, if_pos (Option.some_inj.mp hsecond).symm]
  | [p, q] =>
    rw [hparents] at hfirst hsecond
    obtain ⟨-, hne, hp⟩ := hposition (by rw [hparents]; simp) hfirst
    obtain ⟨hlt, hneSecond, hq⟩ := hposition (p := q) (by rw [hparents]; simp) hsecond
    have hflag : row.secondEdge &&& graphExtraEdgesNeeded = 0 := and_extra_eq_zero hlt
    rw [if_neg hne, hp, Option.bind_eq_bind, Option.bind_some, if_neg hneSecond, if_pos hflag, hq]
    exact rfl
  | p :: q :: r :: next =>
    obtain ⟨hk, own, rest, hown, hdrop⟩ := hlist (by rw [hparents]; simp)
    rw [hparents] at hfirst hsecond
    obtain ⟨-, hne, hp⟩ := hposition (by rw [hparents]; simp) hfirst
    have hvalue : row.secondEdge = 2 ^ 31 ||| k := (Option.some_inj.mp hsecond).symm
    have hneSecond : row.secondEdge ≠ graphParentNone := by
      intro heq
      have := or_extra_and k
      rw [← hvalue, heq] at this
      exact this (by decide)
    have hindex : row.secondEdge &&& graphEdgeLastMask = k := by
      rw [hvalue]
      exact or_extra_mask hk
    have hflag : ¬ row.secondEdge &&& graphExtraEdgesNeeded = 0 := by
      rw [hvalue]
      exact or_extra_and k
    obtain ⟨own', hown', -, hread⟩ := @writeParentEdges_read ctx chain (q :: r :: next) (List.cons_ne_nil _ _)
      fun p hp => hedge p (by rw [hparents]; exact List.mem_cons_of_mem _ hp)
    rw [hparents, List.tail_cons, hown'] at hown
    obtain rfl := Option.some_inj.mp hown
    rw [if_neg hne, hp, Option.bind_eq_bind, Option.bind_some, if_neg hneSecond, if_neg hflag, hindex, hdrop, hread]
    exact rfl

lemma packedDate0_eq {c : Commit} (hlevel : ctx.topoLevel c.oid < 2 ^ 30) :
    packedDate0 ctx c = 2 ^ 2 * ctx.topoLevel c.oid + c.date / 2 ^ 32 % 2 ^ 2 := by
  have hshift : ctx.topoLevel c.oid <<< 2 % 2 ^ 32 = ctx.topoLevel c.oid <<< 2 := by
    rw [Nat.shiftLeft_eq]
    exact Nat.mod_eq_of_lt (by omega)
  have hhigh : c.date >>> 32 &&& 0x3 = c.date / 2 ^ 32 % 2 ^ 2 := by
    rw [Nat.shiftRight_eq_div_pow]
    exact Nat.and_two_pow_sub_one_eq_mod _ 2
  rw [packedDate0, hshift, hhigh, or_low (Nat.mod_lt _ (by decide))]

lemma readDate_row {edges : List Nat} {c : Commit} {row : CommitData} (hrow : IsRow ctx edges c row)
    (hlevel : ctx.topoLevel c.oid < 2 ^ 30) : readDate row = c.date % 2 ^ 34 := by
  have hhigh : packedDate0 ctx c &&& 0x3 = packedDate0 ctx c % 2 ^ 2 := Nat.and_two_pow_sub_one_eq_mod _ 2
  rw [readDate, hrow.date0, hrow.date1, hhigh, packedDate0_eq hlevel, Nat.or_comm, or_low (Nat.mod_lt _ (by decide))]
  omega

lemma readLevel_row {edges : List Nat} {c : Commit} {row : CommitData} (hrow : IsRow ctx edges c row)
    (hlevel : ctx.topoLevel c.oid < 2 ^ 30) : row.packedDate0 >>> 2 = ctx.topoLevel c.oid := by
  rw [hrow.date0, packedDate0_eq hlevel, Nat.shiftRight_eq_div_pow]
  omega

end Rows

section Generations

variable {ctx : WriteContext}

lemma writeGenerationData_spec (ctx : WriteContext) {list : List Commit} (n : Nat) (before : List (Nat × Nat)) (hn : before.length = n) (i : Nat)
    {c : Commit} (hc : list[i]? = some c) :
    ∃ offset, (writeGraphChunkGenerationData ctx n list)[i]? = some offset ∧
      if generationNumberV2OffsetMax < computeGenerationOffset ctx c then
        ∃ k < n + list.length, offset = correctedCommitDateOffsetOverflow ||| k ∧
          (before ++ writeGraphChunkGenerationDataOverflow ctx list)[k]? =
            some (computeGenerationOffset ctx c >>> 32, computeGenerationOffset ctx c % 2 ^ 32)
      else offset = computeGenerationOffset ctx c := by
  induction list generalizing n before i with
  | nil => simp at hc
  | cons d list ih =>
    rw [writeGraphChunkGenerationData, writeGraphChunkGenerationDataOverflow, List.length_cons]
    cases i with
    | zero =>
      rw [List.getElem?_cons_zero, Option.some_inj] at hc
      subst hc
      split_ifs with hlarge
      · refine ⟨_, rfl, n, by omega, rfl, ?_⟩
        rw [List.getElem?_append_right (by omega), hn, Nat.sub_self]
        exact rfl
      · exact ⟨_, rfl, rfl⟩
    | succ i =>
      rw [List.getElem?_cons_succ] at hc
      split_ifs with hd hlarge hlarge
      · obtain ⟨offset, hoffset, hspec⟩ := ih (n + 1) (before ++ [(computeGenerationOffset ctx d >>> 32,
          computeGenerationOffset ctx d % 2 ^ 32)]) (by simp [hn]) i hc
        rw [if_pos hlarge, List.append_assoc, List.singleton_append] at hspec
        obtain ⟨k, hk, heq, hget⟩ := hspec
        exact ⟨offset, hoffset, k, by omega, heq, hget⟩
      · obtain ⟨offset, hoffset, hspec⟩ := ih (n + 1) (before ++ [(computeGenerationOffset ctx d >>> 32,
          computeGenerationOffset ctx d % 2 ^ 32)]) (by simp [hn]) i hc
        rw [if_neg hlarge] at hspec
        exact ⟨offset, hoffset, hspec⟩
      · obtain ⟨offset, hoffset, hspec⟩ := ih n before hn i hc
        rw [if_pos hlarge] at hspec
        obtain ⟨k, hk, heq, hget⟩ := hspec
        exact ⟨offset, hoffset, k, by omega, heq, hget⟩
      · obtain ⟨offset, hoffset, hspec⟩ := ih n before hn i hc
        rw [if_neg hlarge] at hspec
        exact ⟨offset, hoffset, hspec⟩

lemma add_generationOffset (ctx : WriteContext) {c : Commit} (hgen : ctx.generation c.oid < 2 ^ 64) :
    (c.date % 2 ^ 34 + computeGenerationOffset ctx c) % 2 ^ 64 = ctx.generation c.oid := by
  rw [computeGenerationOffset, Nat.and_two_pow_sub_one_eq_mod]
  omega

lemma mem_large {list : List Commit} {c : Commit} (hc : c ∈ list)
    (hlarge : generationNumberV2OffsetMax < computeGenerationOffset ctx c) :
    list.countP (fun c => generationNumberV2OffsetMax < computeGenerationOffset ctx c) ≠ 0 := by
  rw [Nat.ne_zero_iff_zero_lt, List.countP_pos_iff]
  exact ⟨c, hc, decide_eq_true hlarge⟩

lemma readGeneration_date {g : CommitGraph} {row : CommitData} {i : Nat} {c : Commit}
    (hc : ctx.commits[i]? = some c) (hread : g.readGenerationData = true) (hwrite : ctx.writeGenerationData = true)
    (hdata : g.chunkGenerationData = some (writeGraphChunkGenerationData ctx 0 ctx.commits))
    (hoverflow : g.chunkGenerationDataOverflow = if numGenerationDataOverflows ctx ≠ 0
      then some (writeGraphChunkGenerationDataOverflow ctx ctx.commits) else none)
    (hsmall : ctx.commits.length ≤ 2 ^ 31) (hdate : readDate row = c.date % 2 ^ 34)
    (hgen : ctx.generation c.oid < 2 ^ 64) :
    readGeneration g i row = some (ctx.generation c.oid) := by
  obtain ⟨offset, hoffset, hspec⟩ := writeGenerationData_spec ctx 0 [] rfl i hc
  rw [readGeneration, if_pos hread, hdata, Option.getD_some, hoffset, Option.bind_eq_bind, Option.bind_some, hdate]
  split_ifs at hspec with hlarge
  · obtain ⟨k, hk, rfl, hget⟩ := hspec
    have hne : numGenerationDataOverflows ctx ≠ 0 := by
      rw [numGenerationDataOverflows, if_pos hwrite]
      exact mem_large (List.mem_of_getElem? hc) hlarge
    have hxor : (correctedCommitDateOffsetOverflow ||| k) ^^^ correctedCommitDateOffsetOverflow = k :=
      or_extra_xor (by omega)
    have hwords : computeGenerationOffset ctx c >>> 32 <<< 32 ||| computeGenerationOffset ctx c % 2 ^ 32 =
        computeGenerationOffset ctx c := by
      rw [Nat.or_comm, or_low (Nat.mod_lt _ (by decide)), Nat.shiftRight_eq_div_pow]
      omega
    rw [List.nil_append] at hget
    rw [if_pos (show (correctedCommitDateOffsetOverflow ||| k) &&& correctedCommitDateOffsetOverflow ≠ 0 from or_extra_and k),
      hoverflow, if_pos hne, hxor, Option.bind_eq_bind, Option.bind_some, hget, Option.bind_eq_bind, Option.bind_some,
      hwords, add_generationOffset ctx hgen]
  · rw [generationNumberV2OffsetMax, not_lt] at hlarge
    have hflag : computeGenerationOffset ctx c &&& correctedCommitDateOffsetOverflow = 0 :=
      and_extra_eq_zero (by omega)
    have hadd := add_generationOffset ctx hgen
    rw [Nat.mod_eq_of_lt (by omega)] at hadd
    rw [hspec, if_neg (not_not.mpr hflag), hadd]

end Generations

end GitCore.Graph
