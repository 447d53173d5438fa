import GitCore.Refs.PackedIterator
import GitCore.Refs.SnapshotSearch
import GitCore.Refs.SanitizeSpec

/-!
# The regions that the iterator over the packed refs skips

In sorted records the names that start with a pattern stand together, so that each pattern has one region. The
list of regions is coalesced in place; its entries hold the excluded records as long as no extension of a region
is lost, which happens behind a first merge.
-/

namespace GitCore.Refs

variable {hexsz : Nat} {records : List (Record hexsz)} {a c u v : List (Record hexsz)} {r : Record hexsz}

lemma length_content_lt (a : List (Record hexsz)) (r : Record hexsz) (c : List (Record hexsz)) :
    (content a).length < (content (a ++ r :: c)).length := by
  have := r.length_bytes_pos
  simp only [content_append, content_cons, List.length_append]
  omega

lemma length_content_le (a c : List (Record hexsz)) : (content a).length ≤ (content (a ++ c)).length := by
  simp

lemma isPrefix_of_length_content_le (hu : u <+: records) (hv : v <+: records)
    (h : (content u).length ≤ (content v).length) : u <+: v := by
  obtain huv | ⟨t, rfl⟩ := List.prefix_or_prefix_of_prefix hu hv
  · exact huv
  · cases t with
    | nil => simp
    | cons r t => exact absurd h (not_le.mpr (length_content_lt v r t))

lemma isPrefix_of_length_content_lt (hu : u <+: records) (hv : v <+: records)
    (h : (content u).length < (content v).length) : ∃ r t, v = u ++ r :: t := by
  obtain ⟨t, rfl⟩ := isPrefix_of_length_content_le hu hv h.le
  cases t with
  | nil => simp at h
  | cons r t => exact ⟨r, t, rfl⟩

lemma append_eq_append_cons {α : Type*} {u v a c : List α} {x : α} (h : u ++ v = a ++ x :: c) :
    (∃ s, u = a ++ x :: s ∧ c = s ++ v) ∨ ∃ t, a = u ++ t ∧ v = t ++ x :: c := by
  obtain ⟨t, rfl, rfl⟩ | ⟨t, rfl, ht⟩ := List.append_eq_append_iff.mp h
  · exact .inr ⟨t, rfl, rfl⟩
  · cases t with
    | nil => exact .inr ⟨[], by simp, by simpa using ht.symm⟩
    | cons y t =>
      obtain ⟨rfl, rfl⟩ := List.cons.inj ht
      exact .inl ⟨t, rfl, rfl⟩

def Bounded (records : List (Record hexsz)) (e : JumpListEntry) : Prop :=
  (∃ u, u <+: records ∧ e.start = (content u).length) ∧ ∃ v, v <+: records ∧ e.stop = (content v).length

lemma findReferenceLocation_split (h : SortedRecords (a ++ c)) {refname : RefName} (ha : ∀ r ∈ a, r.name < refname)
    (hc : ∀ r ∈ c, refname ≤ r.name) :
    findReferenceLocation hexsz (content (a ++ c)) refname false = some (some (content a).length) := by
  -- the boundary is the only one
  have hunique : ∀ u v : List (Record hexsz), a ++ c = u ++ v → (∀ r ∈ u, r.name < refname) →
      (∀ r ∈ v, refname ≤ r.name) → u = a := by
    intro u v heq hu hv
    obtain ⟨t, rfl, rfl⟩ | ⟨t, rfl, rfl⟩ := List.append_eq_append_iff.mp heq
    · cases t with
      | nil => simp
      | cons r t => exact absurd (hu r (by simp)) (not_lt.mpr (hc r (by simp)))
    · cases t with
      | nil => simp
      | cons r t => exact absurd (ha r (by simp)) (not_lt.mpr (hv r (by simp)))
  obtain ⟨u, r, v, heq, rfl, hfind⟩ | ⟨u, v, heq, hu, hv, hfind⟩ := findReferenceLocation_spec h refname false
  · have hsorted := h.sorted
    rw [heq, List.pairwise_append, List.pairwise_cons] at hsorted
    obtain ⟨-, ⟨hbehind, -⟩, hbefore⟩ := hsorted
    have := hunique u (r :: v) heq (fun s hs => hbefore s hs r (List.mem_cons_self ..)) (fun s hs => by
      obtain rfl | hs := List.mem_cons.mp hs
      · exact le_rfl
      · exact (hbehind s hs).le)
    rw [hfind, this]
  · rw [hfind, hunique u v heq hu (fun s hs => (hv s hs).le)]
    rfl

lemma findReferenceLocationEnd_split (h : SortedRecords (a ++ c)) {refname : RefName}
    (hother : ∀ r ∈ a ++ c, r.name ≠ refname) (ha : ∀ r ∈ a, r.name < refname ∨ refname <+: r.name)
    (hc : ∀ r ∈ c, refname ≤ r.name ∧ ¬refname <+: r.name) :
    findReferenceLocationEnd hexsz (content (a ++ c)) refname false = some (some (content a).length) := by
  obtain ⟨u, v, heq, hu, hv, hfind⟩ := findReferenceLocationEnd_spec h refname hother false
  suffices u = a by
    rw [hfind, this]
    rfl
  obtain ⟨t, rfl, rfl⟩ | ⟨t, rfl, rfl⟩ := List.append_eq_append_iff.mp heq
  · cases t with
    | nil => simp
    | cons r t =>
      obtain ⟨hle, hno⟩ := hc r (by simp)
      obtain hlt | hyes := hu r (by simp)
      · exact absurd hlt (not_lt.mpr hle)
      · exact absurd hyes hno
  · cases t with
    | nil => simp
    | cons r t =>
      obtain ⟨hlt, hno⟩ := hv r (by simp)
      obtain hlt' | hyes := ha r (by simp)
      · exact absurd hlt' hlt.not_gt
      · exact absurd hyes hno

lemma exists_split_prefix (h : records.Pairwise (fun r s => r.name < s.name)) (pattern : RefName) :
    ∃ a b c, records = a ++ b ++ c ∧ (∀ r ∈ a, r.name < pattern) ∧ (∀ r ∈ b, pattern <+: r.name) ∧
      ∀ r ∈ c, pattern ≤ r.name ∧ ¬pattern <+: r.name := by
  induction records with
  | nil => exact ⟨[], [], [], by simp⟩
  | cons s records ih =>
    obtain ⟨hs, hrest⟩ := List.pairwise_cons.mp h
    obtain ⟨a, b, c, rfl, ha, hb, hc⟩ := ih hrest
    by_cases hlt : s.name < pattern
    · refine ⟨s :: a, b, c, by simp, ?_, hb, hc⟩
      simpa [hlt] using ha
    · have hge := not_lt.mp hlt
      obtain rfl : a = [] := by
        refine List.eq_nil_iff_forall_not_mem.mpr fun r hr => ?_
        exact absurd ((hs r (by simp [hr])).trans (ha r hr)) hlt
      by_cases hyes : pattern <+: s.name
      · refine ⟨[], s :: b, c, by simp, by simp, ?_, hc⟩
        simpa [hyes] using hb
      · -- no name behind has the prefix
        obtain rfl : b = [] := by
          refine List.eq_nil_iff_forall_not_mem.mpr fun r hr => ?_
          exact absurd (prefix_of_between hge (hs r (by simp [hr])).le (hb r hr)) hyes
        refine ⟨[], [], s :: c, by simp, by simp, by simp, ?_⟩
        simpa [hge, hyes] using hc

variable {src : IterSource}

structure WellFormed (src : IterSource) (r : Record src.hexsz) : Prop where
  oid : (getOidHex src.rawsz r.head).isSome
  separator : ∀ c, r.head[src.hexsz]? = some c → Config.isspace c = true
  nul : 0 ∉ r.name
  name : Refname.checkRefnameFormat r.name Refname.REFNAME_ALLOW_ONELEVEL = true ∨ refnameIsSafe src r.name = true
  peeled : ∀ line ∈ r.peeled, line.length = src.hexsz ∧ (getOidHex src.rawsz line).isSome

def Excluded (patterns : List RefName) (name : RefName) : Prop :=
  ∃ p ∈ patterns, hasGlobSpecial p = false ∧ p <+: name

instance decidableExcluded (patterns : List RefName) (name : RefName) : Decidable (Excluded patterns name) :=
  inferInstanceAs (Decidable (∃ p ∈ patterns, hasGlobSpecial p = false ∧ p <+: name))

lemma excluded_cons {p : RefName} {patterns : List RefName} {name : RefName} :
    Excluded (p :: patterns) name ↔ (hasGlobSpecial p = false ∧ p <+: name) ∨ Excluded patterns name := by
  simp [Excluded]

lemma getLast?_of_checkRefnameFormat {name : RefName} (hnul : 0 ∉ name)
    (h : Refname.checkRefnameFormat name Refname.REFNAME_ALLOW_ONELEVEL = true) :
    name.getLast? ≠ some Refname.slash := by
  obtain ⟨parts, hne, hparts, rfl⟩ := Refname.exists_joined hnul
  obtain ⟨-, hvalid, -⟩ := (Refname.checkRefnameFormat_joined hne hparts).mp h
  obtain ⟨front, part, rfl⟩ := List.eq_nil_or_concat' parts |>.resolve_left hne
  rw [Refname.getLast?_joined front (hvalid part (by simp)).nonempty]
  exact (hparts part (by simp)).getLast?_ne

lemma getLast?_of_refnameIsSafe {name : RefName} (h : refnameIsSafe src name = true) :
    name.getLast? ≠ some Refname.slash := by
  unfold refnameIsSafe at h
  dsimp only at h
  split_ifs at h with hdir hrest
  · obtain ⟨rest, rfl⟩ := hdir
    rw [List.drop_left] at hrest
    rw [not_or, not_or] at hrest
    rw [List.getLast?_append_of_ne_nil _ hrest.1]
    exact hrest.2.2
  · intro hlast
    rw [decide_eq_true_eq, List.all_eq_true] at h
    have hslash := h.2 _ (List.mem_of_getLast? hlast)
    exact absurd hslash (by decide)

lemma WellFormed.name_ne {r : Record src.hexsz} (h : WellFormed src r) {pattern : RefName}
    (hpattern : pattern.getLast? = some Refname.slash) : r.name ≠ pattern := by
  rintro rfl
  exact h.name.elim (fun hcheck => getLast?_of_checkRefnameFormat h.nul hcheck hpattern)
    fun hsafe => getLast?_of_refnameIsSafe hsafe hpattern

structure Packed (src : IterSource) (records : List (Record src.hexsz)) (patterns : List RefName) : Prop where
  snapshot : src.snapshot = content records
  sorted : SortedRecords records
  wellFormed : ∀ r ∈ records, WellFormed src r
  slash : ∀ p ∈ patterns, p.getLast? = some Refname.slash

structure HoldsExcluded (records : List (Record hexsz)) (patterns : List RefName) (jump : List JumpListEntry) : Prop where
  bounded : ∀ e ∈ jump, Bounded records e
  holds_iff : ∀ a r c, records = a ++ r :: c →
    ((∃ e ∈ jump, e.Holds (content a).length) ↔ Excluded patterns r.name)

lemma holds_block_iff {u b v a c : List (Record hexsz)} {r : Record hexsz} (h : u ++ b ++ v = a ++ r :: c) :
    (Region.mk (content u).length (content (u ++ b)).length).Holds (content a).length ↔ ∃ t, a = u ++ t ∧ r ∈ b ∧
      ∃ s, b = t ++ r :: s := by
  constructor
  · rintro ⟨hlow, hhigh⟩
    have hu : u <+: a ++ r :: c := ⟨b ++ v, by rw [← h, List.append_assoc]⟩
    have hub : u ++ b <+: a ++ r :: c := ⟨v, h⟩
    have ha : a <+: a ++ r :: c := List.prefix_append ..
    obtain ⟨t, rfl⟩ := isPrefix_of_length_content_le hu ha hlow
    obtain ⟨r', s, heq⟩ := isPrefix_of_length_content_lt ha hub hhigh
    rw [List.append_assoc, List.append_cancel_left_eq] at heq
    subst heq
    simp only [List.append_assoc, List.cons_append, List.append_cancel_left_eq, List.cons.injEq] at h
    obtain ⟨rfl, -⟩ := h
    exact ⟨t, rfl, by simp, s, rfl⟩
  · rintro ⟨t, rfl, -, s, rfl⟩
    refine ⟨length_content_le u t, ?_⟩
    rw [← List.append_assoc]
    exact length_content_lt ..

lemma referenceLocations_split {patterns : List RefName} {u b v : List (Record src.hexsz)}
    (h : Packed src (u ++ b ++ v) patterns) {pattern : RefName} (hpattern : pattern ∈ patterns)
    (hu : ∀ r ∈ u, r.name < pattern) (hb : ∀ r ∈ b, pattern <+: r.name)
    (hv : ∀ r ∈ v, pattern ≤ r.name ∧ ¬pattern <+: r.name) :
    referenceLocation src pattern = .ok (content u).length ∧
      referenceLocationEnd src pattern = .ok (content (u ++ b)).length := by
  have hother : ∀ r ∈ u ++ b ++ v, r.name ≠ pattern :=
    fun r hr => (h.wellFormed r hr).name_ne (h.slash pattern hpattern)
  constructor
  · have hsplit := findReferenceLocation_split (List.append_assoc u b v ▸ h.sorted) hu fun r hr => by
      obtain hr | hr := List.mem_append.mp hr
      · exact not_lt.mp (hb r hr).le
      · exact (hv r hr).1
    rw [referenceLocation, h.snapshot, List.append_assoc, hsplit]
  · have hsplit := findReferenceLocationEnd_split h.sorted hother (fun r hr => by
      obtain hr | hr := List.mem_append.mp hr
      · exact .inl (hu r hr)
      · exact .inr (hb r hr)) hv
    rw [referenceLocationEnd, h.snapshot, hsplit]

lemma excludedRegion_spec {patterns : List RefName} {records : List (Record src.hexsz)} (h : Packed src records patterns)
    {pattern : RefName} (hpattern : pattern ∈ patterns) :
    ∃ e : JumpListEntry, referenceLocation src pattern = .ok e.start ∧ referenceLocationEnd src pattern = .ok e.stop ∧
      Bounded records e ∧
      ∀ a r c, records = a ++ r :: c → (e.Holds (content a).length ↔ pattern <+: r.name) := by
  obtain ⟨u, b, v, rfl, hu, hb, hv⟩ := exists_split_prefix h.sorted.sorted pattern
  obtain ⟨hstart, hstop⟩ := referenceLocations_split h hpattern hu hb hv
  refine ⟨⟨(content u).length, (content (u ++ b)).length⟩, hstart, hstop, ⟨⟨u, ?_, rfl⟩, ⟨u ++ b, ?_, rfl⟩⟩, ?_⟩
  · rw [List.append_assoc]
    exact List.prefix_append ..
  · exact List.prefix_append ..
  · intro a r c hrecords
    rw [holds_block_iff hrecords]
    constructor
    · rintro ⟨-, -, hr, -⟩
      exact hb r hr
    · intro hyes
      obtain ⟨s, hub, -⟩ | ⟨t, -, hmem⟩ := append_eq_append_cons hrecords
      · obtain ⟨s', hmem, -⟩ | ⟨t, rfl, rfl⟩ := append_eq_append_cons hub
        · exact absurd (hu r (by simp [hmem])) (List.IsPrefix.le hyes)
        · exact ⟨t, rfl, by simp, s, rfl⟩
      · exact absurd hyes (hv r (by simp [hmem])).2

lemma excludedRegions_spec {records : List (Record src.hexsz)} {patterns rest : List RefName}
    (h : Packed src records patterns) (hrest : rest ⊆ patterns) :
    ∃ regions, excludedRegions src rest = .ok regions ∧ HoldsExcluded records rest regions := by
  induction rest with
  | nil => exact ⟨[], rfl, by simp, by simp [Excluded]⟩
  | cons p rest ih =>
    obtain ⟨hp, hrest⟩ := List.cons_subset.mp hrest
    obtain ⟨regions, hregions, hholds⟩ := ih hrest
    rw [excludedRegions]
    by_cases hglob : hasGlobSpecial p = true
    · refine ⟨regions, by rw [if_pos hglob, hregions], hholds.bounded, fun a r c hrecords => ?_⟩
      rw [hholds.holds_iff a r c hrecords, excluded_cons, hglob]
      simp
    · obtain ⟨e, hstart, hstop, hbounded, he⟩ := excludedRegion_spec h hp
      rw [if_neg hglob, hstart, hstop, hregions]
      refine ⟨_, rfl, ?_⟩
      by_cases hempty : e.start = e.stop
      · -- no name starts with the pattern
        refine ⟨by simpa [hempty] using hholds.bounded, fun a r c hrecords => ?_⟩
        have hno : ¬p <+: r.name := by
          rw [← he a r c hrecords, Region.Holds, hempty]
          exact fun hholds => absurd hholds.2 (not_lt.mpr hholds.1)
        rw [if_pos hempty, hholds.holds_iff a r c hrecords, excluded_cons]
        simp [hno]
      · refine ⟨?_, fun a r c hrecords => ?_⟩
        · simpa [hempty] using ⟨hbounded, hholds.bounded⟩
        · rw [if_neg hempty, excluded_cons, ← hholds.holds_iff a r c hrecords, ← he a r c hrecords]
          simp [hglob]

/-- No extension of a region is lost: behind the first region that is merged with another one, a region reaches no
further than the first one of those it is merged with. `shared` tells that `last_disjoint` points at an entry of
the result, and `merged` that regions were merged. -/
def KeepsExtensions (shared merged : Bool) (cur : JumpListEntry) : List JumpListEntry → Prop
  | [] => True
  | ours :: rest =>
    if ours.start ≤ cur.stop then
      (shared = false → ours.stop ≤ cur.stop) ∧ KeepsExtensions shared true (cur.extend ours) rest
    else KeepsExtensions (!merged) merged ours rest

structure Coalescing (jump : List JumpListEntry) (i j last : Nat) (cur : JumpListEntry) (shared merged : Bool) : Prop where
  last_lt : last < i
  j_pos : 1 ≤ j
  j_le : j ≤ i
  j_le_last : j ≤ last + 1
  last_eq : jump[last]? = some cur
  kept : jump[j - 1]? = some cur
  shared_iff : shared = true ↔ last + 1 = j
  merged_iff : merged = true ↔ j < i

variable {jump rest : List JumpListEntry} {i j last : Nat} {cur ours : JumpListEntry} {shared merged : Bool}

lemma Coalescing.take_eq (h : Coalescing jump i j last cur shared merged) : jump.take j = jump.take (j - 1) ++ [cur] := by
  obtain ⟨j, rfl⟩ := Nat.exists_eq_add_of_le' h.j_pos
  have hkept := h.kept
  rw [Nat.add_sub_cancel] at hkept ⊢
  rw [List.take_add_one, hkept]
  rfl

lemma Coalescing.extend (h : Coalescing jump i j last cur shared merged) (hkeep : shared = false → ours.stop ≤ cur.stop) :
    Coalescing (jump.set last (cur.extend ours)) (i + 1) j last (cur.extend ours) shared true where
  last_lt := by have := h.last_lt; omega
  j_pos := h.j_pos
  j_le := by have := h.j_le; omega
  j_le_last := h.j_le_last
  last_eq := by
    have := (List.getElem?_eq_some_iff.mp h.last_eq).1
    simp [this]
  kept := by
    by_cases hshared : last + 1 = j
    · have hlen := (List.getElem?_eq_some_iff.mp h.last_eq).1
      obtain rfl : last = j - 1 := by omega
      simp [hlen]
    · have hfalse : shared = false := Bool.eq_false_iff.mpr fun htrue => hshared (h.shared_iff.mp htrue)
      rw [Region.extend_of_le (hkeep hfalse)]
      have := h.j_pos
      rw [List.getElem?_set_ne (by omega), h.kept]
  shared_iff := h.shared_iff
  merged_iff := by have := h.j_le; simp; omega

lemma Coalescing.insert (h : Coalescing jump i j last cur shared merged) (hours : jump[i]? = some ours) :
    Coalescing (jump.set j ours) (i + 1) (j + 1) i ours (!merged) merged where
  last_lt := by omega
  j_pos := by omega
  j_le := by have := h.j_le; omega
  j_le_last := by have := h.j_le; omega
  last_eq := by
    have hlen := (List.getElem?_eq_some_iff.mp hours).1
    by_cases heq : j = i
    · simp [heq, hlen]
    · rw [List.getElem?_set_ne heq, hours]
  kept := by
    have hlen := (List.getElem?_eq_some_iff.mp hours).1
    have := h.j_le
    rw [Nat.add_sub_cancel, List.getElem?_set_self (by omega)]
  shared_iff := by
    have hj := h.j_le
    cases merged with
    | false =>
      have := h.merged_iff
      simp at this ⊢
      omega
    | true =>
      have := h.merged_iff.mp rfl
      simp
      omega
  merged_iff := by rw [h.merged_iff]; omega

lemma coalesceJumps_end (h : jump[i]? = none) : coalesceJumps jump i j last = jump.take j := by
  rw [coalesceJumps, h]

lemma coalesceJumps_step (hours : jump[i]? = some ours) (hlast : jump[last]? = some cur) :
    coalesceJumps jump i j last =
      if ours.start ≤ cur.stop then coalesceJumps (jump.set last (cur.extend ours)) (i + 1) j last
      else coalesceJumps (jump.set j ours) (i + 1) (j + 1) i := by
  rw [coalesceJumps, hours, hlast]

lemma coalesceJumps_eq (h : Coalescing jump i j last cur shared merged) (hrest : jump.drop i = rest)
    (hkeep : KeepsExtensions shared merged cur rest) :
    coalesceJumps jump i j last = jump.take (j - 1) ++ Region.coalesce cur rest := by
  induction rest generalizing jump i j last cur shared merged with
  | nil =>
    have hend : jump[i]? = none := by
      rw [List.getElem?_eq_none_iff]
      exact List.drop_eq_nil_iff.mp hrest
    rw [coalesceJumps_end hend, Region.coalesce, ← h.take_eq]
  | cons ours rest ih =>
    have hours : jump[i]? = some ours := by
      rw [← List.head?_drop, hrest]
      rfl
    have hbehind : jump.drop (i + 1) = rest := by
      rw [← List.tail_drop, hrest]
      rfl
    have hj := h.j_le
    have hlast := h.last_lt
    rw [coalesceJumps_step hours h.last_eq, Region.coalesce]
    rw [KeepsExtensions] at hkeep
    split_ifs at hkeep ⊢ with htouch
    · have hnext := ih (h.extend hkeep.1) (by rw [List.drop_set_of_lt (by omega), hbehind]) hkeep.2
      rw [hnext, List.take_set_of_le (Nat.sub_le_of_le_add h.j_le_last)]
    · have hnext := ih (h.insert hours) (by rw [List.drop_set_of_lt (by omega), hbehind]) hkeep
      rw [hnext, Nat.add_sub_cancel, List.take_set_of_le le_rfl, h.take_eq, List.append_assoc]
      rfl

/-- A sort by the starts, as `QSORT` does with `jump_list_entry_cmp`. -/
structure SortsByStart (qsort : List JumpListEntry → List JumpListEntry) : Prop where
  perm : ∀ l, (qsort l).Perm l
  ordered : ∀ l, Region.Ordered (qsort l)

def RegionsKept (src : IterSource) (qsort : List JumpListEntry → List JumpListEntry) (patterns : List RefName) : Prop :=
  ∀ regions cur rest, excludedRegions src patterns = .ok regions → qsort regions = cur :: rest →
    KeepsExtensions true false cur rest

lemma HoldsExcluded.perm {records : List (Record hexsz)} {patterns : List RefName} {jump jump' : List JumpListEntry}
    (h : HoldsExcluded records patterns jump) (hperm : jump'.Perm jump) : HoldsExcluded records patterns jump' where
  bounded e he := h.bounded e (hperm.subset he)
  holds_iff a r c hrecords := by
    rw [← h.holds_iff a r c hrecords]
    simp only [hperm.mem_iff]

lemma HoldsExcluded.coalesce {records : List (Record hexsz)} {patterns : List RefName}
    (h : HoldsExcluded records patterns (cur :: rest)) (hordered : Region.Ordered (cur :: rest)) :
    HoldsExcluded records patterns (Region.coalesce cur rest) where
  bounded e he := by
    obtain ⟨⟨s, hs, hstart⟩, ⟨t, ht, hstop⟩⟩ := Region.bounds_of_mem_coalesce he
    obtain ⟨⟨u, hu, hus⟩, -⟩ := h.bounded s hs
    obtain ⟨-, ⟨v, hv, hvt⟩⟩ := h.bounded t ht
    exact ⟨⟨u, hu, hstart.trans hus⟩, ⟨v, hv, hstop.trans hvt⟩⟩
  holds_iff a r c hrecords := by
    rw [Region.exists_holds_coalesce_iff hordered, h.holds_iff a r c hrecords]

lemma populateExcludedJumpList_spec {records : List (Record src.hexsz)} {patterns : List RefName}
    {qsort : List JumpListEntry → List JumpListEntry} (h : Packed src records patterns) (hsort : SortsByStart qsort)
    (hkept : RegionsKept src qsort patterns) :
    ∃ jump, populateExcludedJumpList src qsort patterns = .ok jump ∧ Region.Ordered jump ∧ Region.Separated jump ∧
      HoldsExcluded records patterns jump := by
  obtain ⟨regions, hregions, hholds⟩ := excludedRegions_spec h (List.Subset.refl patterns)
  rw [populateExcludedJumpList, hregions]
  by_cases hempty : regions = []
  · refine ⟨[], by simp [hempty, bind, Except.bind], List.Pairwise.nil, List.Pairwise.nil, ?_⟩
    rwa [hempty] at hholds
  · have hsorted := hholds.perm (hsort.perm regions)
    have hordered := hsort.ordered regions
    cases hcase : qsort regions with
    | nil =>
      have hperm := hsort.perm regions
      rw [hcase] at hperm
      exact absurd hperm.symm.eq_nil hempty
    | cons cur rest =>
      rw [hcase] at hsorted hordered
      have hstart : Coalescing (cur :: rest) 1 1 0 cur true false :=
        ⟨by omega, le_rfl, le_rfl, le_rfl, rfl, rfl, by simp, by simp⟩
      refine ⟨Region.coalesce cur rest, ?_, Region.ordered_coalesce hordered, Region.separated_coalesce hordered,
        hsorted.coalesce hordered⟩
      have hjumps := coalesceJumps_eq hstart rfl (hkept regions cur rest hregions hcase)
      simp [bind, Except.bind, hempty, hcase, hjumps]

end GitCore.Refs
