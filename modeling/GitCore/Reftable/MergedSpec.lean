import GitCore.Lib.Overlay
import GitCore.Reftable.Merged
import Mathlib.Data.Prod.Lex

/-!
# The merged iterator yields the newest records

`MergedInv` relates an iterator to its tables. One call of `merged_iter_next_entry` takes the
least key that is still pending, from the newest table that has it; a whole iteration
therefore yields what `Overlay.newest` says, wherever the comparison of records is exact.
-/

namespace GitCore.Reftable

open Overlay (Sorted newest newest_eq_some)

variable {R : Type} {vt : RecordVtable R}

def pqRank (vt : RecordVtable R) (e : PqEntry R) : List UInt8 ×ₗ ℕᵒᵈ :=
  toLex (vt.key e.record, OrderDual.toDual e.index)

lemma pqRank_lt {a b : PqEntry R} : pqRank vt a < pqRank vt b ↔
    vt.key a.record < vt.key b.record ∨ vt.key a.record = vt.key b.record ∧ b.index < a.index := by
  simp [pqRank, Prod.Lex.toLex_lt_toLex]

lemma pqRank_le {a b : PqEntry R} (h : pqRank vt a ≤ pqRank vt b) :
    vt.key a.record ≤ vt.key b.record ∧ (vt.key b.record = vt.key a.record → b.index ≤ a.index) := by
  rw [← not_lt, pqRank_lt, not_or, not_and, not_lt, not_lt] at h
  exact h

lemma pqLess_ranked {pq : Array (PqEntry R)}
    (h : ∀ a ∈ pq, ∀ b ∈ pq, vt.CmpExact a.record b.record) :
    Heap.Ranked (pqRank vt) (pqLess vt) pq := by
  intro a ha b hb
  obtain ⟨hlt, heq⟩ := h a ha b hb
  rw [Bool.eq_iff_iff, decide_eq_true_eq, pqRank_lt, pqLess]
  split_ifs with h0
  · have hkey := heq.mp h0
    simp [hkey]
  · have hkey : vt.key a.record ≠ vt.key b.record := fun h => h0 (heq.mpr h)
    simp [hkey, hlt]

/-- Record `r` of table `i` has not been returned yet. -/
def Pending (mi : MergedIter R) (i : Nat) (r : R) : Prop :=
  ⟨i, r⟩ ∈ mi.pq ∨ ∃ sub, mi.subiters[i]? = some sub ∧ r ∈ sub.rest

structure MergedInv (vt : RecordVtable R) (tables : List (List R)) (held : List Nat)
    (mi : MergedIter R) : Prop where
  records : mi.subiters.map (·.records) = tables
  suffix : ∀ sub ∈ mi.subiters, sub.rest <:+ sub.records
  own : ∀ e ∈ mi.pq, ∃ table, tables[e.index]? = some table ∧ e.record ∈ table
  heap : Heap.IsHeap (pqRank vt) mi.pq
  front : ∀ e ∈ mi.pq, ∀ sub, mi.subiters[e.index]? = some sub →
    ∀ r ∈ sub.rest, vt.key e.record < vt.key r
  nodup : (mi.pq.toList.map (·.index)).Nodup
  cover : ∀ i sub, mi.subiters[i]? = some sub → sub.rest ≠ [] → i ∈ held ∨ ∃ e ∈ mi.pq, e.index = i
  apart : ∀ e ∈ mi.pq, e.index ∉ held

structure TablesOk (vt : RecordVtable R) (tables : List (List R)) : Prop where
  sorted : ∀ table ∈ tables, Sorted vt.key table
  self : ∀ r, vt.CmpExact r r
  exact : tables.Pairwise fun table table' =>
    ∀ r ∈ table, ∀ s ∈ table', vt.CmpExact r s ∧ vt.CmpExact s r

lemma TablesOk.exact_of_ne {tables : List (List R)} (hok : TablesOk vt tables) {i j : Nat}
    {table table' : List R} (hij : i ≠ j) (hi : tables[i]? = some table) (hj : tables[j]? = some table')
    {r s : R} (hr : r ∈ table) (hs : s ∈ table') : vt.CmpExact r s := by
  obtain ⟨hi', rfl⟩ := List.getElem?_eq_some_iff.mp hi
  obtain ⟨hj', rfl⟩ := List.getElem?_eq_some_iff.mp hj
  have hpair := List.pairwise_iff_getElem.mp hok.exact
  rcases lt_or_gt_of_ne hij with hlt | hlt
  · exact (hpair i j hi' hj' hlt r hr s hs).1
  · exact (hpair j i hj' hi' hlt s hs r hr).2

section Steps

variable {tables : List (List R)} {held : List Nat} {mi : MergedIter R}

lemma MergedInv.table (h : MergedInv vt tables held mi) {i : Nat} {sub : SubIter R}
    (hget : mi.subiters[i]? = some sub) : tables[i]? = some sub.records := by
  rw [← h.records, List.getElem?_map, hget]
  rfl

lemma MergedInv.pending_mem (h : MergedInv vt tables held mi) {i : Nat} {r : R}
    (hp : Pending mi i r) : ∃ table, tables[i]? = some table ∧ r ∈ table := by
  rcases hp with hpq | ⟨sub, hget, hr⟩
  · exact h.own _ hpq
  · exact ⟨sub.records, h.table hget, (h.suffix sub (List.mem_of_getElem? hget)).subset hr⟩

lemma MergedInv.cmpExact (h : MergedInv vt tables held mi) (hok : TablesOk vt tables) {i j : Nat}
    (hij : i ≠ j) {r s : R} (hr : Pending mi i r) (hs : Pending mi j s) : vt.CmpExact r s := by
  obtain ⟨t, ht, hrt⟩ := h.pending_mem hr
  obtain ⟨t', ht', hst⟩ := h.pending_mem hs
  exact hok.exact_of_ne hij ht ht' hrt hst

lemma MergedInv.queueExact (h : MergedInv vt tables held mi) (hok : TablesOk vt tables)
    (a : PqEntry R) (ha : a ∈ mi.pq) (b : PqEntry R) (hb : b ∈ mi.pq) :
    vt.CmpExact a.record b.record := by
  by_cases hidx : a.index = b.index
  · rw [List.inj_on_of_nodup_map h.nodup (Array.mem_toList_iff.mpr ha) (Array.mem_toList_iff.mpr hb) hidx]
    exact hok.self b.record
  · exact h.cmpExact hok hidx (.inl ha) (.inl hb)

lemma MergedInv.rest_sorted (h : MergedInv vt tables held mi) (hok : TablesOk vt tables) {i : Nat}
    {sub : SubIter R} (hget : mi.subiters[i]? = some sub) : Sorted vt.key sub.rest :=
  (hok.sorted _ (List.mem_of_getElem? (h.table hget))).sublist
    (h.suffix sub (List.mem_of_getElem? hget)).sublist

lemma MergedInv.ranked (h : MergedInv vt tables held mi) (hok : TablesOk vt tables) :
    Heap.Ranked (pqRank vt) (pqLess vt) mi.pq :=
  pqLess_ranked (h.queueExact hok)

lemma mem_heapAdd {pq : Array (PqEntry R)} {e a : PqEntry R} :
    a ∈ Heap.add (pqLess vt) pq e ↔ a ∈ pq ∨ a = e := by
  rw [(Heap.add_perm pq e).mem_iff, Array.mem_push]

lemma MergedInv.advance {i : Nat} (h : MergedInv vt tables (i :: held) mi) (hok : TablesOk vt tables)
    (hi : i ∉ held) :
    MergedInv vt tables held (mergedIterAdvanceSubiter vt mi i) ∧
      ∀ j r, Pending (mergedIterAdvanceSubiter vt mi i) j r ↔ Pending mi j r := by
  unfold mergedIterAdvanceSubiter
  split
  · next records record rest hget =>
    have hsuf := h.suffix _ (List.mem_of_getElem? hget)
    have hsorted := List.pairwise_cons.mp (h.rest_sorted hok hget)
    have hlt : i < mi.subiters.length := (List.getElem?_eq_some_iff.mp hget).1
    have hset (j : Nat) (sub : SubIter R) : (mi.subiters.set i ⟨records, rest⟩)[j]? = some sub ↔
        if j = i then sub = ⟨records, rest⟩ else mi.subiters[j]? = some sub := by
      rw [List.getElem?_set]
      split_ifs with h1 h2 h2
      · simp [eq_comm]
      · exact absurd h1.symm h2
      · exact absurd h2.symm h1
      · rfl
    have hpending (j : Nat) (r : R) : Pending { mi with
        subiters := mi.subiters.set i ⟨records, rest⟩,
        pq := Heap.add (pqLess vt) mi.pq ⟨i, record⟩ } j r ↔ Pending mi j r := by
      simp only [Pending, mem_heapAdd, hset, PqEntry.mk.injEq]
      by_cases hji : j = i
      · subst hji
        simp only [if_true, exists_eq_left, true_and, hget, Option.some.injEq, exists_eq_left',
          List.mem_cons]
        tauto
      · simp [hji]
    refine ⟨⟨?_, ?_, ?_, ?_, ?_, ?_, ?_, ?_⟩, hpending⟩
    · rw [← h.records, List.map_set]
      apply List.ext_getElem?
      intro j
      rw [List.getElem?_set]
      split_ifs with hj hj'
      · subst hj
        simp [hget]
      · simp only [List.length_map] at hj'
        exact absurd (hj ▸ hlt) hj'
      · rfl
    · intro sub hsub
      rcases List.mem_or_eq_of_mem_set hsub with hsub | rfl
      · exact h.suffix sub hsub
      · exact (List.suffix_cons record rest).trans hsuf
    · intro e he
      rcases mem_heapAdd.mp he with he | rfl
      · exact h.own e he
      · exact ⟨records, h.table hget, hsuf.subset (by simp)⟩
    · apply Heap.add_isHeap _ h.heap
      apply pqLess_ranked
      have hrec : Pending mi i record := .inr ⟨_, hget, by simp⟩
      have hne (e : PqEntry R) (he : e ∈ mi.pq) : e.index ≠ i := fun heq => h.apart e he (by simp [heq])
      intro a ha b hb
      rcases Array.mem_push.mp ha with ha | rfl <;> rcases Array.mem_push.mp hb with hb | rfl
      · exact h.queueExact hok a ha b hb
      · exact h.cmpExact hok (hne a ha) (.inl ha) hrec
      · exact h.cmpExact hok (hne b hb).symm hrec (.inl hb)
      · exact hok.self record
    · intro e he sub hsub r hr
      rw [hset] at hsub
      rcases mem_heapAdd.mp he with he | rfl
      · have hne : e.index ≠ i := fun heq => h.apart e he (by simp [heq])
        rw [if_neg hne] at hsub
        exact h.front e he sub hsub r hr
      · rw [if_pos rfl] at hsub
        rw [hsub] at hr
        exact hsorted.1 r hr
    · have hperm := (Array.perm_iff_toList_perm.mp
        (@Heap.add_perm _ (pqLess vt) mi.pq ⟨i, record⟩)).map (·.index)
      simp only
      rw [hperm.nodup_iff, Array.toList_push, List.map_append, List.nodup_append]
      refine ⟨h.nodup, by simp, ?_⟩
      intro a ha b hb
      obtain ⟨e, he, rfl⟩ := List.mem_map.mp ha
      obtain rfl : b = i := by simpa using hb
      exact fun heq => h.apart e (Array.mem_toList_iff.mp he) (by simp [heq])
    · intro j sub hsub hne
      rw [hset] at hsub
      by_cases hji : j = i
      · exact .inr ⟨_, mem_heapAdd.mpr (.inr rfl), hji.symm⟩
      · rw [if_neg hji] at hsub
        rcases h.cover j sub hsub hne with hj | ⟨e, he, hej⟩
        · exact .inl ((List.mem_cons.mp hj).resolve_left hji)
        · exact .inr ⟨e, mem_heapAdd.mpr (.inl he), hej⟩
    · intro e he
      rcases mem_heapAdd.mp he with he | rfl
      · exact fun hmem => h.apart e he (by simp [hmem])
      · exact hi
  · next hnone =>
    refine ⟨⟨h.records, h.suffix, h.own, h.heap, h.front, h.nodup, ?_, ?_⟩, fun j r => Iff.rfl⟩
    · intro j sub hsub hne
      rcases h.cover j sub hsub hne with hj | hj
      · rcases List.mem_cons.mp hj with rfl | hj
        · obtain ⟨records, rest⟩ := sub
          cases rest with
          | nil => exact absurd rfl hne
          | cons r rest => exact absurd hsub (hnone records r rest)
        · exact .inl hj
      · exact .inr hj
    · exact fun e he hmem => h.apart e he (by simp [hmem])

lemma MergedInv.removeTop (h : MergedInv vt tables held mi) (hok : TablesOk vt tables)
    (hpos : 0 < mi.pq.size) :
    let mi' := { mi with pq := Heap.remove (pqLess vt) mi.pq }
    MergedInv vt tables (mi.pq[0].index :: held) mi' ∧ mi.pq[0].index ∉ held ∧
      ∀ j s, Pending mi' j s ↔ Pending mi j s ∧ ¬ (j = mi.pq[0].index ∧ s = mi.pq[0].record) := by
  have hperm := @Heap.remove_perm _ (pqLess vt) mi.pq hpos
  have htop : mi.pq[0] ∈ mi.pq := Array.getElem_mem hpos
  have hnodup := (hperm.map (·.index)).nodup_iff.mp h.nodup
  rw [List.map_cons, List.nodup_cons] at hnodup
  have hmem (e : PqEntry R) : e ∈ mi.pq ↔ e = mi.pq[0] ∨ e ∈ Heap.remove (pqLess vt) mi.pq := by
    rw [← Array.mem_toList_iff, hperm.mem_iff, List.mem_cons, Array.mem_toList_iff]
  have hne (e : PqEntry R) (he : e ∈ Heap.remove (pqLess vt) mi.pq) : e.index ≠ mi.pq[0].index :=
    fun heq => hnodup.1 (List.mem_map.mpr ⟨e, Array.mem_toList_iff.mpr he, heq⟩)
  refine ⟨⟨h.records, h.suffix, ?_, ?_, ?_, hnodup.2, ?_, ?_⟩, h.apart _ htop, ?_⟩
  · exact fun e he => h.own e ((hmem e).mpr (.inr he))
  · exact Heap.remove_isHeap (h.ranked hok) h.heap
  · exact fun e he => h.front e ((hmem e).mpr (.inr he))
  · intro i sub hsub hrest
    rcases h.cover i sub hsub hrest with hi | ⟨e, he, hei⟩
    · exact .inl (by simp [hi])
    · rcases (hmem e).mp he with rfl | he
      · exact .inl (by simp [hei])
      · exact .inr ⟨e, he, hei⟩
  · intro e he hheld
    rcases List.mem_cons.mp hheld with heq | hheld
    · exact hne e he heq
    · exact h.apart e ((hmem e).mpr (.inr he)) hheld
  · intro j s
    simp only [Pending]
    constructor
    · rintro (he | ⟨sub, hsub, hs⟩)
      · exact ⟨.inl ((hmem _).mpr (.inr he)), fun heq => hne _ he heq.1⟩
      · refine ⟨.inr ⟨sub, hsub, hs⟩, ?_⟩
        rintro ⟨rfl, rfl⟩
        exact lt_irrefl _ (h.front _ htop sub hsub _ hs)
    · rintro ⟨he | hrest, hnot⟩
      · rcases (hmem _).mp he with heq | he
        · exact absurd ⟨congrArg PqEntry.index heq, congrArg PqEntry.record heq⟩ hnot
        · exact .inl he
      · exact .inr hrest

lemma MergedInv.top_le (h : MergedInv vt tables held mi) (hpos : 0 < mi.pq.size) {j : Nat} {s : R}
    (hs : Pending mi j s) (hj : j ∉ held) :
    vt.key mi.pq[0].record ≤ vt.key s ∧ (vt.key s = vt.key mi.pq[0].record → j ≤ mi.pq[0].index) := by
  have hroot (e : PqEntry R) (he : e ∈ mi.pq) : pqRank vt mi.pq[0] ≤ pqRank vt e := by
    obtain ⟨i, hi, rfl⟩ := Array.getElem_of_mem he
    exact h.heap.root_le i hi
  rcases hs with he | ⟨sub, hsub, hr⟩
  · exact pqRank_le (hroot _ he)
  · obtain ⟨e, he, rfl⟩ := (h.cover j sub hsub (List.ne_nil_of_mem hr)).resolve_left hj
    have hlt := h.front e he sub hsub s hr
    have hle := (pqRank_le (hroot e he)).1
    exact ⟨(hle.trans_lt hlt).le, fun heq => absurd (heq ▸ hle.trans_lt hlt) (lt_irrefl _)⟩

lemma mergedIterDropShadowed_spec (hok : TablesOk vt tables) (entry : PqEntry R) (mi : MergedIter R)
    (h : MergedInv vt tables [entry.index] mi)
    (hexact : ∀ j s, j ≠ entry.index → Pending mi j s → vt.CmpExact s entry.record)
    (hle : ∀ j s, Pending mi j s → vt.key entry.record ≤ vt.key s)
    (hself : ∀ s, Pending mi entry.index s → vt.key entry.record < vt.key s) :
    MergedInv vt tables [entry.index] (mergedIterDropShadowed vt entry mi) ∧
      ∀ j s, Pending (mergedIterDropShadowed vt entry mi) j s ↔
        Pending mi j s ∧ vt.key entry.record < vt.key s := by
  induction mi using mergedIterDropShadowed.induct vt entry with
  | case1 mi hpos top hgt =>
    simp only [top] at hgt
    rw [mergedIterDropShadowed, dif_pos hpos, if_pos hgt]
    refine ⟨h, fun j s => ⟨fun hs => ⟨hs, ?_⟩, And.left⟩⟩
    have htop : Pending mi mi.pq[0].index mi.pq[0].record := .inl (Array.getElem_mem hpos)
    have hother : mi.pq[0].index ≠ entry.index :=
      fun heq => h.apart _ (Array.getElem_mem hpos) (by simp [heq])
    obtain ⟨hlt, heq⟩ := hexact _ _ hother htop
    have hkey : vt.key entry.record < vt.key mi.pq[0].record := by
      refine lt_of_le_of_ne (hle _ _ htop) fun hc => ?_
      have := heq.mpr hc.symm
      omega
    by_cases hj : j = entry.index
    · exact hself s (hj ▸ hs)
    · exact hkey.trans_le (h.top_le hpos hs (by simpa using hj)).1
  | case2 mi hpos top hngt ih =>
    simp only [top] at hngt ih
    rw [mergedIterDropShadowed, dif_pos hpos, if_neg hngt]
    have htop : Pending mi mi.pq[0].index mi.pq[0].record := .inl (Array.getElem_mem hpos)
    have hother : mi.pq[0].index ≠ entry.index :=
      fun heq => h.apart _ (Array.getElem_mem hpos) (by simp [heq])
    obtain ⟨hlt, heq⟩ := hexact _ _ hother htop
    have hkey : vt.key mi.pq[0].record = vt.key entry.record := by
      by_contra hne
      have h1 : ¬ vt.cmp mi.pq[0].record entry.record < 0 :=
        fun hc => not_lt_of_ge (hle _ _ htop) (hlt.mp hc)
      have h2 : vt.cmp mi.pq[0].record entry.record ≠ 0 := fun hc => hne (heq.mp hc)
      omega
    obtain ⟨hrem, hnot, hpend⟩ := h.removeTop hok hpos
    obtain ⟨hadv, hpend'⟩ := hrem.advance hok hnot
    have hsub (j : Nat) (s : R) (hs : Pending (mergedIterAdvanceSubiter vt
        { mi with pq := Heap.remove (pqLess vt) mi.pq } mi.pq[0].index) j s) : Pending mi j s :=
      ((hpend j s).mp ((hpend' j s).mp hs)).1
    obtain ⟨hinv, hiff⟩ := ih hadv (fun j s hj hs => hexact j s hj (hsub j s hs))
      (fun j s hs => hle j s (hsub j s hs)) (fun s hs => hself s (hsub _ s hs))
    refine ⟨hinv, fun j s => ?_⟩
    rw [hiff, hpend', hpend]
    constructor
    · rintro ⟨⟨hs, -⟩, hlt⟩
      exact ⟨hs, hlt⟩
    · rintro ⟨hs, hlt⟩
      exact ⟨⟨hs, fun heq => absurd (heq.2 ▸ hlt) (by rw [hkey]; exact lt_irrefl _)⟩, hlt⟩
  | case3 mi hpos =>
    rw [mergedIterDropShadowed, dif_neg hpos]
    refine ⟨h, fun j s => ⟨fun hs => ⟨hs, ?_⟩, And.left⟩⟩
    have hempty (e : PqEntry R) : e ∉ mi.pq := by
      intro he
      obtain ⟨i, hi, -⟩ := Array.getElem_of_mem he
      omega
    rcases hs with he | ⟨sub, hsub, hr⟩
    · exact absurd he (hempty _)
    · rcases h.cover j sub hsub (List.ne_nil_of_mem hr) with hj | ⟨e, he, -⟩
      · obtain rfl : j = entry.index := by simpa using hj
        exact hself s (.inr ⟨sub, hsub, hr⟩)
      · exact absurd he (hempty e)

end Steps

/-- A step from `mi` to `mi'` returned the pending record `r` with the least key, of the
newest table that has the key, and all that is left lies behind it. -/
structure Took (vt : RecordVtable R) (tables : List (List R)) (mi : MergedIter R) (r : R)
    (mi' : MergedIter R) : Prop where
  least : ∃ i, Pending mi i r ∧ ∀ j s, Pending mi j s →
    vt.key r ≤ vt.key s ∧ (vt.key s = vt.key r → j ≤ i)
  left : ∀ j s, Pending mi' j s ↔ Pending mi j s ∧ vt.key r < vt.key s
  inv : MergedInv vt tables mi'.advanceIndex.toList mi'
  suppress : mi'.suppressDeletions = mi.suppressDeletions

section Iteration

variable {tables : List (List R)} {mi : MergedIter R}

lemma MergedInv.withAdvanceIndex {held : List Nat} (h : MergedInv vt tables held mi)
    (idx : Option Nat) : MergedInv vt tables held { mi with advanceIndex := idx } :=
  ⟨h.records, h.suffix, h.own, h.heap, h.front, h.nodup, h.cover, h.apart⟩

lemma suppress_advanceSubiter (mi : MergedIter R) (i : Nat) :
    (mergedIterAdvanceSubiter vt mi i).suppressDeletions = mi.suppressDeletions := by
  unfold mergedIterAdvanceSubiter
  split <;> rfl

lemma suppress_dropShadowed (entry : PqEntry R) (mi : MergedIter R) :
    (mergedIterDropShadowed vt entry mi).suppressDeletions = mi.suppressDeletions := by
  induction mi using mergedIterDropShadowed.induct vt entry with
  | case1 mi hpos top hgt => rw [mergedIterDropShadowed, dif_pos hpos, if_pos hgt]
  | case2 mi hpos top hngt ih =>
    rw [mergedIterDropShadowed, dif_pos hpos, if_neg hngt]
    simp only [top] at ih
    rw [ih, suppress_advanceSubiter]
  | case3 mi hpos => rw [mergedIterDropShadowed, dif_neg hpos]

lemma mergedIterTakeTop_took (h : MergedInv vt tables [] mi) (hok : TablesOk vt tables)
    (hpos : 0 < mi.pq.size) :
    Took vt tables mi (mergedIterTakeTop vt mi hpos).1 (mergedIterTakeTop vt mi hpos).2 := by
  have htop : Pending mi mi.pq[0].index mi.pq[0].record := .inl (Array.getElem_mem hpos)
  obtain ⟨hrem, -, hpend⟩ := h.removeTop hok hpos
  have hle (j : Nat) (s : R) (hs : Pending mi j s) := h.top_le hpos hs (List.not_mem_nil)
  obtain ⟨hinv, hiff⟩ := mergedIterDropShadowed_spec hok mi.pq[0]
    { mi with pq := Heap.remove (pqLess vt) mi.pq } hrem
    (fun j s hj hs => h.cmpExact hok hj ((hpend j s).mp hs).1 htop)
    (fun j s hs => (hle j s ((hpend j s).mp hs).1).1) (by
      rintro s (he | ⟨sub, hsub, hr⟩)
      · exact absurd (by simp) (hrem.apart _ he)
      · exact h.front _ (Array.getElem_mem hpos) sub hsub s hr)
  refine ⟨⟨mi.pq[0].index, htop, hle⟩, fun j s => ?_, hinv.withAdvanceIndex _, ?_⟩
  · have : Pending (mergedIterTakeTop vt mi hpos).2 j s ↔ Pending (mergedIterDropShadowed vt mi.pq[0]
        { mi with pq := Heap.remove (pqLess vt) mi.pq }) j s := Iff.rfl
    rw [this, hiff, hpend]
    constructor
    · rintro ⟨⟨hs, -⟩, hlt⟩
      exact ⟨hs, hlt⟩
    · rintro ⟨hs, hlt⟩
      exact ⟨⟨hs, fun heq => absurd (heq.2 ▸ hlt) (lt_irrefl _)⟩, hlt⟩
  · exact suppress_dropShadowed _ _

lemma not_mem_of_size_zero {pq : Array (PqEntry R)} (h : pq.size = 0) (e : PqEntry R) : e ∉ pq := by
  intro he
  obtain ⟨i, hi, -⟩ := Array.getElem_of_mem he
  omega

lemma took_onlySubiter {idx : Nat} {records rest : List R} {r : R}
    (h : MergedInv vt tables [idx] mi) (hok : TablesOk vt tables) (hadv : mi.advanceIndex = some idx)
    (hempty : mi.pq.size = 0) (hget : mi.subiters[idx]? = some ⟨records, r :: rest⟩) :
    Took vt tables mi r { mi with subiters := mi.subiters.set idx ⟨records, rest⟩ } := by
  have hsorted := List.pairwise_cons.mp (h.rest_sorted hok hget)
  have hlt := (List.getElem?_eq_some_iff.mp hget).1
  have hpq := not_mem_of_size_zero hempty
  have honly (j : Nat) (s : R) : Pending mi j s ↔ j = idx ∧ (s = r ∨ s ∈ rest) := by
    constructor
    · rintro (he | ⟨sub, hsub, hs⟩)
      · exact absurd he (hpq _)
      · rcases h.cover j sub hsub (List.ne_nil_of_mem hs) with hj | ⟨e, he, -⟩
        · obtain rfl : j = idx := by simpa using hj
          rw [hget] at hsub
          cases hsub
          exact ⟨rfl, List.mem_cons.mp hs⟩
        · exact absurd he (hpq e)
    · rintro ⟨rfl, hs⟩
      exact .inr ⟨_, hget, List.mem_cons.mpr hs⟩
  refine ⟨⟨idx, (honly _ _).mpr ⟨rfl, .inl rfl⟩, fun j s hs => ?_⟩, fun j s => ?_, ?_, rfl⟩
  · obtain ⟨rfl, rfl | hs⟩ := (honly j s).mp hs
    · exact ⟨le_rfl, fun _ => le_rfl⟩
    · exact ⟨(hsorted.1 s hs).le, fun _ => le_rfl⟩
  · rw [honly]
    simp only [Pending, hpq, false_or, List.getElem?_set]
    constructor
    · rintro ⟨sub, hsub, hs⟩
      split_ifs at hsub with hj
      · obtain rfl := Option.some.inj hsub
        exact ⟨⟨hj.symm, .inr hs⟩, hsorted.1 s hs⟩
      · have := (honly j s).mp (.inr ⟨sub, hsub, hs⟩)
        exact absurd this.1.symm hj
    · rintro ⟨⟨rfl, rfl | hs⟩, hkey⟩
      · exact absurd hkey (lt_irrefl _)
      · exact ⟨⟨records, rest⟩, by rw [if_pos rfl, if_pos hlt], hs⟩
  · have hset (j : Nat) (sub : SubIter R) (hsub : (mi.subiters.set idx ⟨records, rest⟩)[j]? = some sub) :
        j = idx ∨ mi.subiters[j]? = some sub := by
      rw [List.getElem?_set] at hsub
      split_ifs at hsub with hj
      · exact .inl hj.symm
      · exact .inr hsub
    refine ⟨?_, ?_, fun e he => absurd he (hpq e), h.heap, fun e he => absurd he (hpq e), h.nodup, ?_,
      fun e he => absurd he (hpq e)⟩
    · rw [← h.records]
      apply List.ext_getElem?
      intro j
      simp only [List.getElem?_map, List.getElem?_set]
      split_ifs with hj
      · rw [← hj, hget]
        rfl
      · rfl
    · intro sub hsub
      rcases List.mem_or_eq_of_mem_set hsub with hsub | rfl
      · exact h.suffix sub hsub
      · exact (List.suffix_cons r rest).trans (h.suffix _ (List.mem_of_getElem? hget))
    · intro j sub hsub hne
      rw [hadv]
      rcases hset j sub hsub with rfl | hsub
      · exact .inl (by simp)
      · rcases h.cover j sub hsub hne with hj | ⟨e, he, -⟩
        · exact .inl (by simpa using hj)
        · exact absurd he (hpq e)

lemma mergedIterNextEntry_spec (h : MergedInv vt tables mi.advanceIndex.toList mi)
    (hok : TablesOk vt tables) :
    (mergedIterNextEntry vt mi = none ∧ ∀ j s, ¬ Pending mi j s) ∨
      ∃ r mi', mergedIterNextEntry vt mi = some (r, mi') ∧ Took vt tables mi r mi' := by
  have hnone {held : List Nat} {mi : MergedIter R} (h : MergedInv vt tables held mi)
      (hempty : mi.pq.size = 0) (hheld : ∀ i ∈ held, ∀ records r rest,
        mi.subiters[i]? ≠ some ⟨records, r :: rest⟩) (j : Nat) (s : R) : ¬ Pending mi j s := by
    rintro (he | ⟨⟨records, rest⟩, hsub, hs⟩)
    · exact absurd he (not_mem_of_size_zero hempty _)
    · rcases h.cover j _ hsub (List.ne_nil_of_mem hs) with hj | ⟨e, he, -⟩
      · cases rest with
        | nil => simp at hs
        | cons r rest => exact hheld j hj records r rest hsub
      · exact absurd he (not_mem_of_size_zero hempty e)
  rw [mergedIterNextEntry]
  split
  · next idx hadv =>
    rw [hadv] at h
    obtain ⟨hinv, hpend⟩ := @MergedInv.advance _ _ _ [] _ _ h hok (List.not_mem_nil)
    split_ifs with hempty
    · split
      · next hget => exact .inr ⟨_, _, rfl, took_onlySubiter h hok hadv hempty hget⟩
      · next hget =>
        refine .inl ⟨rfl, hnone h hempty fun i hi => ?_⟩
        obtain rfl : i = idx := by simpa using hi
        exact fun records r rest => hget records r rest
    · dsimp only
      split_ifs with hpos
      · obtain ⟨⟨i, hi, hleast⟩, hleft, hinv', hsup⟩ :=
          mergedIterTakeTop_took (hinv.withAdvanceIndex none) hok hpos
        refine .inr ⟨_, _, rfl, ⟨i, (hpend _ _).mp hi, fun j s hs => hleast j s ((hpend j s).mpr hs)⟩,
          fun j s => ?_, hinv', hsup.trans (suppress_advanceSubiter mi idx)⟩
        exact (hleft j s).trans (and_congr_left' (hpend j s))
      · refine .inl ⟨rfl, fun j s hs => ?_⟩
        exact hnone hinv (by simpa using hpos) (by simp) j s ((hpend j s).mpr hs)
  · next hadv =>
    rw [hadv] at h
    split_ifs with hpos
    · exact .inr ⟨_, _, rfl, mergedIterTakeTop_took h hok hpos⟩
    · exact .inl ⟨rfl, hnone h (by omega) (by simp)⟩

/-- `r` is pending, and no newer table has its key pending. -/
def Leading (vt : RecordVtable R) (mi : MergedIter R) (r : R) : Prop :=
  ∃ i, Pending mi i r ∧ ∀ j s, Pending mi j s → vt.key s = vt.key r → j ≤ i

def Suppressed (vt : RecordVtable R) (mi : MergedIter R) (r : R) : Prop :=
  mi.suppressDeletions = true ∧ vt.isDeletion r = true

lemma Leading.eq_of_key_eq {held : List Nat} {r s : R} (hr : Leading vt mi r) (hs : Leading vt mi s)
    (hinv : MergedInv vt tables held mi) (hok : TablesOk vt tables) (hkey : vt.key r = vt.key s) :
    r = s := by
  obtain ⟨i, hi, himax⟩ := hr
  obtain ⟨j, hj, hjmax⟩ := hs
  obtain rfl : i = j := le_antisymm (hjmax i r hi hkey) (himax j s hj hkey.symm)
  obtain ⟨t, ht, hrt⟩ := hinv.pending_mem hi
  obtain ⟨t', ht', hst⟩ := hinv.pending_mem hj
  obtain rfl : t = t' := by simpa [ht] using ht'
  exact (hok.sorted t (List.mem_of_getElem? ht)).eq_of_key_eq hrt hst hkey

lemma Took.leading {held : List Nat} {r : R} {mi' : MergedIter R} (h : Took vt tables mi r mi')
    (hinv : MergedInv vt tables held mi) (hok : TablesOk vt tables) :
    Leading vt mi r ∧ (∀ s, Leading vt mi s → s = r ∨ vt.key r < vt.key s) ∧
      ∀ s, Leading vt mi' s ↔ Leading vt mi s ∧ vt.key r < vt.key s := by
  obtain ⟨i, hi, hleast⟩ := h.least
  have hlead : Leading vt mi r := ⟨i, hi, fun j s hs => (hleast j s hs).2⟩
  refine ⟨hlead, ?_, fun s => ⟨?_, ?_⟩⟩
  · intro s hs
    obtain ⟨j, hj, -⟩ := id hs
    rcases (hleast j s hj).1.lt_or_eq with hlt | heq
    · exact .inr hlt
    · exact .inl (hs.eq_of_key_eq hlead hinv hok heq.symm)
  · rintro ⟨j, hj, hmax⟩
    obtain ⟨hj, hlt⟩ := (h.left j s).mp hj
    exact ⟨⟨j, hj, fun k t ht heq => hmax k t ((h.left k t).mpr ⟨ht, by rwa [heq]⟩) heq⟩, hlt⟩
  · rintro ⟨⟨j, hj, hmax⟩, hlt⟩
    exact ⟨j, (h.left j s).mpr ⟨hj, hlt⟩, fun k t ht heq => hmax k t ((h.left k t).mp ht).1 heq⟩

lemma mergedIterNext_spec (h : MergedInv vt tables mi.advanceIndex.toList mi)
    (hok : TablesOk vt tables) :
    (mergedIterNext vt mi = none ∧ ∀ s, Leading vt mi s → Suppressed vt mi s) ∨
      ∃ r mi', mergedIterNext vt mi = some (r, mi') ∧ Leading vt mi r ∧ ¬ Suppressed vt mi r ∧
        MergedInv vt tables mi'.advanceIndex.toList mi' ∧
        mi'.suppressDeletions = mi.suppressDeletions ∧
        (∀ s, Leading vt mi' s ↔ Leading vt mi s ∧ vt.key r < vt.key s) ∧
        ∀ s, Leading vt mi s → ¬ Suppressed vt mi s → vt.key r ≤ vt.key s := by
  induction mi using mergedIterNext.induct vt with
  | case1 mi hnone =>
    have hres : mergedIterNext vt mi = none := by
      rw [mergedIterNext]
      split
      · rfl
      · next heq => rw [hnone] at heq; cases heq
    rcases mergedIterNextEntry_spec h hok with ⟨-, hpend⟩ | ⟨r, mi', hsome, -⟩
    · refine .inl ⟨hres, fun s hs => ?_⟩
      obtain ⟨i, hi, -⟩ := hs
      exact absurd hi (hpend i s)
    · rw [hnone] at hsome
      cases hsome
  | case2 mi r mi' hsome hdel ih =>
    have hres : mergedIterNext vt mi = mergedIterNext vt mi' := by
      rw [mergedIterNext]
      split
      · next heq => rw [hsome] at heq; cases heq
      · next heq =>
        rw [hsome] at heq
        cases heq
        rw [if_pos hdel]
    obtain ⟨r', mi'', hsome', htook⟩ := (mergedIterNextEntry_spec h hok).resolve_left (by simp [hsome])
    obtain ⟨rfl, rfl⟩ : r = r' ∧ mi' = mi'' := by simpa [hsome] using hsome'
    obtain ⟨hlead, hleast, hleft⟩ := htook.leading h hok
    have hsup (s : R) : Suppressed vt mi' s ↔ Suppressed vt mi s := by
      simp [Suppressed, htook.suppress]
    -- `r` is suppressed, so the leading records of `mi` that are not suppressed are those of `mi'`
    have hstay (s : R) (hs : Leading vt mi s) (hns : ¬ Suppressed vt mi s) : Leading vt mi' s := by
      refine (hleft s).mpr ⟨hs, ?_⟩
      rcases hleast s hs with rfl | hlt
      · exact absurd ((hsup _).mp hdel) hns
      · exact hlt
    rw [hres]
    rcases ih htook.inv with ⟨hnone, hall⟩ | ⟨r', mi'', hsome', hlead', hns', hinv', hsup', hleft', hleast'⟩
    · refine .inl ⟨hnone, fun s hs => ?_⟩
      by_contra hns
      exact hns ((hsup s).mp (hall s (hstay s hs hns)))
    · refine .inr ⟨r', mi'', hsome', ((hleft r').mp hlead').1, fun hc => hns' ((hsup _).mpr hc), hinv',
        hsup'.trans htook.suppress, fun s => ?_, fun s hs hns => ?_⟩
      · rw [hleft', hleft]
        have hlt := ((hleft r').mp hlead').2
        exact ⟨fun hs => ⟨hs.1.1, hs.2⟩, fun hs => ⟨⟨hs.1, hlt.trans hs.2⟩, hs.2⟩⟩
      · exact hleast' s (hstay s hs hns) (fun hc => hns ((hsup s).mp hc))
  | case3 mi r mi' hsome hdel =>
    have hres : mergedIterNext vt mi = some (r, mi') := by
      rw [mergedIterNext]
      split
      · next heq => rw [hsome] at heq; cases heq
      · next heq =>
        rw [hsome] at heq
        cases heq
        rw [if_neg hdel]
    obtain ⟨r', mi'', hsome', htook⟩ := (mergedIterNextEntry_spec h hok).resolve_left (by simp [hsome])
    obtain ⟨rfl, rfl⟩ : r = r' ∧ mi' = mi'' := by simpa [hsome] using hsome'
    obtain ⟨hlead, hleast, hleft⟩ := htook.leading h hok
    refine .inr ⟨r, mi', hres, hlead, ?_, htook.inv, htook.suppress, hleft, fun s hs _ => ?_⟩
    · simpa [Suppressed, ← htook.suppress] using hdel
    · rcases hleast s hs with rfl | hlt
      · exact le_rfl
      · exact hlt.le

lemma mergedIterDrain_spec (h : MergedInv vt tables mi.advanceIndex.toList mi)
    (hok : TablesOk vt tables) :
    Sorted vt.key (mergedIterDrain vt mi) ∧
      ∀ s, s ∈ mergedIterDrain vt mi ↔ Leading vt mi s ∧ ¬ Suppressed vt mi s := by
  induction mi using mergedIterDrain.induct vt with
  | case1 mi hnone =>
    have hres : mergedIterDrain vt mi = [] := by
      rw [mergedIterDrain]
      split
      · rfl
      · next heq => rw [hnone] at heq; cases heq
    rw [hres]
    rcases mergedIterNext_spec h hok with ⟨-, hall⟩ | ⟨r, mi', hsome, -⟩
    · refine ⟨List.Pairwise.nil, fun s => ?_⟩
      simp only [List.not_mem_nil, false_iff, not_and, not_not]
      exact hall s
    · rw [hnone] at hsome
      cases hsome
  | case2 mi r mi' hsome ih =>
    have hres : mergedIterDrain vt mi = r :: mergedIterDrain vt mi' := by
      rw [mergedIterDrain]
      split
      · next heq => rw [hsome] at heq; cases heq
      · next heq =>
        rw [hsome] at heq
        cases heq
        rfl
    obtain ⟨r', mi'', hsome', hlead, hns, hinv, hsup, hleft, hleast⟩ :=
      (mergedIterNext_spec h hok).resolve_left (by simp [hsome])
    obtain ⟨rfl, rfl⟩ : r = r' ∧ mi' = mi'' := by simpa [hsome] using hsome'
    obtain ⟨hsorted, hmem⟩ := ih hinv
    have hsup' (s : R) : Suppressed vt mi' s ↔ Suppressed vt mi s := by
      simp [Suppressed, hsup]
    rw [hres]
    refine ⟨List.pairwise_cons.mpr ⟨fun s hs => ?_, hsorted⟩, fun s => ?_⟩
    · exact ((hleft s).mp ((hmem s).mp hs).1).2
    · rw [List.mem_cons, hmem, hleft, hsup']
      constructor
      · rintro (rfl | ⟨⟨hs, -⟩, hns'⟩)
        · exact ⟨hlead, hns⟩
        · exact ⟨hs, hns'⟩
      · rintro ⟨hs, hns'⟩
        rcases (hleast s hs hns').lt_or_eq with hlt | heq
        · exact .inr ⟨⟨hs, hlt⟩, hns'⟩
        · exact .inl (hs.eq_of_key_eq hlead h hok heq.symm)

end Iteration

section Seek

variable {tables : List (List R)} {mi : MergedIter R} {want : List UInt8}

lemma MergedInv.seekSubiter {i : Nat} {held : List Nat} (h : MergedInv vt tables (i :: held) mi)
    (hok : TablesOk vt tables) (hi : i ∉ held) :
    MergedInv vt tables held (mergedIterSeekSubiter vt want mi i) ∧
      ∀ j r, Pending (mergedIterSeekSubiter vt want mi i) j r ↔
        if j = i then ∃ table, tables[i]? = some table ∧ r ∈ table ∧ want ≤ vt.key r
        else Pending mi j r := by
  set seeked : MergedIter R := { mi with subiters := mi.subiters.modify i (fun sub =>
    { sub with rest := sub.records.dropWhile (fun rec => vt.key rec < want) }) } with hseeked
  have hget (j : Nat) : seeked.subiters[j]? = (mi.subiters[j]?).map (fun sub =>
      if i = j then { sub with rest := sub.records.dropWhile (fun rec => vt.key rec < want) } else sub) := by
    rw [hseeked, List.getElem?_modify]
    cases mi.subiters[j]? <;> simp
  have hne (e : PqEntry R) (he : e ∈ mi.pq) : i ≠ e.index :=
    fun heq => h.apart e he (by simp [heq])
  have hinv : MergedInv vt tables (i :: held) seeked := by
    refine ⟨?_, ?_, h.own, h.heap, ?_, h.nodup, ?_, h.apart⟩
    · rw [← h.records]
      apply List.ext_getElem?
      intro j
      rw [List.getElem?_map, List.getElem?_map, hget]
      cases mi.subiters[j]? <;> simp
      split_ifs <;> rfl
    · intro sub hsub
      obtain ⟨j, hj⟩ := List.getElem?_of_mem hsub
      rw [hget, Option.map_eq_some_iff] at hj
      obtain ⟨sub', hj, rfl⟩ := hj
      split_ifs
      · exact List.dropWhile_suffix _
      · exact h.suffix sub' (List.mem_of_getElem? hj)
    · intro e he sub hsub
      rw [hget, Option.map_eq_some_iff] at hsub
      obtain ⟨sub', hj, rfl⟩ := hsub
      rw [if_neg (hne e he)]
      exact h.front e he sub' hj
    · intro j sub hsub hrest
      rw [hget, Option.map_eq_some_iff] at hsub
      obtain ⟨sub', hj, rfl⟩ := hsub
      split_ifs at hrest with hij
      · exact .inl (by simp [hij])
      · exact h.cover j sub' hj hrest
  obtain ⟨hadv, hpend⟩ := hinv.advance hok hi
  refine ⟨hadv, fun j r => (hpend j r).trans ?_⟩
  simp only [Pending]
  split_ifs with hji
  · subst hji
    have hpq : (⟨j, r⟩ : PqEntry R) ∉ seeked.pq := fun he => hne _ he rfl
    have hbefore (s : R) : decide (vt.key s < want) = true ↔ vt.key s < want := decide_eq_true_iff
    simp only [hpq, false_or, hget, Option.map_eq_some_iff, if_true]
    constructor
    · rintro ⟨-, ⟨sub, hsub, rfl⟩, hr⟩
      have htable := h.table hsub
      exact ⟨_, htable, ((hok.sorted _ (List.mem_of_getElem? htable)).mem_dropWhile hbefore).mp hr⟩
    · rintro ⟨table, htable, hr⟩
      rw [← h.records, List.getElem?_map, Option.map_eq_some_iff] at htable
      obtain ⟨sub, hsub, rfl⟩ := htable
      have hsorted := hok.sorted _ (List.mem_of_getElem? (h.table hsub))
      exact ⟨_, ⟨sub, hsub, rfl⟩, (hsorted.mem_dropWhile hbefore).mpr hr⟩
  · have : seeked.subiters[j]? = mi.subiters[j]? := by
      rw [hget]
      simp only [if_neg (Ne.symm hji), Option.map_id']
    rw [this]

lemma MergedInv.seekSubiters {held : List Nat} (h : MergedInv vt tables held mi)
    (hok : TablesOk vt tables) (hnd : held.Nodup) :
    MergedInv vt tables [] (held.foldl (mergedIterSeekSubiter vt want) mi) ∧
      ∀ j r, Pending (held.foldl (mergedIterSeekSubiter vt want) mi) j r ↔
        if j ∈ held then ∃ table, tables[j]? = some table ∧ r ∈ table ∧ want ≤ vt.key r
        else Pending mi j r := by
  induction held generalizing mi with
  | nil => exact ⟨h, fun j r => by simp⟩
  | cons i held ih =>
    obtain ⟨hi, hnd⟩ := List.nodup_cons.mp hnd
    obtain ⟨hinv, hpend⟩ := @MergedInv.seekSubiter _ _ _ _ want _ _ h hok hi
    obtain ⟨hinv', hpend'⟩ := ih hinv hnd
    refine ⟨hinv', fun j r => ?_⟩
    rw [List.foldl_cons, hpend', hpend]
    by_cases hj : j = i
    · subst hj
      simp [hi]
    · simp [hj]

lemma mergedIterSeek_spec (hrec : mi.subiters.map (·.records) = tables)
    (hsuf : ∀ sub ∈ mi.subiters, sub.rest <:+ sub.records) (hok : TablesOk vt tables) :
    MergedInv vt tables [] (mergedIterSeek vt mi want) ∧
      ∀ j r, Pending (mergedIterSeek vt mi want) j r ↔
        ∃ table, tables[j]? = some table ∧ r ∈ table ∧ want ≤ vt.key r := by
  have h : MergedInv vt tables (List.range mi.subiters.length)
      { mi with advanceIndex := none, pq := #[] } := by
    refine ⟨hrec, hsuf, by simp, fun i hi => by simp at hi, by simp, by simp, fun i sub hsub _ => .inl ?_,
      by simp⟩
    exact List.mem_range.mpr (List.getElem?_eq_some_iff.mp hsub).1
  obtain ⟨hinv, hpend⟩ := @MergedInv.seekSubiters _ _ _ _ want _ h hok List.nodup_range
  refine ⟨hinv, fun j r => (hpend j r).trans ?_⟩
  split_ifs with hj
  · rfl
  · have hlen : tables[j]? = none := by
      rw [← hrec, List.getElem?_eq_none_iff, List.length_map]
      simpa using hj
    simp [Pending, hlen, List.getElem?_eq_none_iff.mpr (not_lt.mp (List.mem_range.not.mp hj))]

end Seek

section Tables

variable {tables : List (List R)} {want : List UInt8} (suppressDeletions : Bool)

lemma advanceIndex_advanceSubiter (mi : MergedIter R) (i : Nat) :
    (mergedIterAdvanceSubiter vt mi i).advanceIndex = mi.advanceIndex := by
  unfold mergedIterAdvanceSubiter
  split <;> rfl

lemma seekSubiters_fields (held : List Nat) (mi : MergedIter R) :
    (held.foldl (mergedIterSeekSubiter vt want) mi).advanceIndex = mi.advanceIndex ∧
      (held.foldl (mergedIterSeekSubiter vt want) mi).suppressDeletions = mi.suppressDeletions := by
  induction held generalizing mi with
  | nil => exact ⟨rfl, rfl⟩
  | cons i held ih =>
    obtain ⟨hadv, hsup⟩ := ih (mergedIterSeekSubiter vt want mi i)
    rw [List.foldl_cons]
    exact ⟨hadv.trans (advanceIndex_advanceSubiter _ i), hsup.trans (suppress_advanceSubiter _ i)⟩

lemma mergedTable_seek (hok : TablesOk vt tables) :
    let mi := mergedIterSeek vt (mergedTableInitIter tables suppressDeletions) want
    MergedInv vt tables mi.advanceIndex.toList mi ∧ mi.suppressDeletions = suppressDeletions ∧
      ∀ r, Leading vt mi r ↔ newest vt.key tables (vt.key r) = some r ∧ want ≤ vt.key r := by
  intro mi
  obtain ⟨hinv, hpend⟩ := @mergedIterSeek_spec _ _ _ (mergedTableInitIter tables suppressDeletions) want
    (by simp [mergedTableInitIter, Function.comp_def]) (by simp [mergedTableInitIter]) hok
  obtain ⟨hadv, hsup⟩ := @seekSubiters_fields _ vt want
    (List.range (mergedTableInitIter tables suppressDeletions).subiters.length)
    { mergedTableInitIter tables suppressDeletions with advanceIndex := none, pq := #[] }
  refine ⟨?_, hsup, fun r => ?_⟩
  · have : mi.advanceIndex = none := hadv
    rw [this]
    exact hinv
  · rw [newest_eq_some hok.sorted]
    constructor
    · rintro ⟨i, hi, hmax⟩
      obtain ⟨table, htable, hr, hk⟩ := (hpend i r).mp hi
      exact ⟨⟨rfl, i, ⟨table, htable, hr⟩, fun j t s ht hs hks =>
        hmax j s ((hpend j s).mpr ⟨t, ht, hs, hks ▸ hk⟩) hks⟩, hk⟩
    · rintro ⟨⟨-, i, ⟨table, htable, hr⟩, hmax⟩, hk⟩
      refine ⟨i, (hpend i r).mpr ⟨table, htable, hr, hk⟩, fun j s hs hks => ?_⟩
      obtain ⟨t, ht, hst, -⟩ := (hpend j s).mp hs
      exact hmax j t s ht hst hks

theorem mergedLookup_eq_newest (hok : TablesOk vt tables) (want : List UInt8) :
    mergedLookup vt tables want = (newest vt.key tables want).filter (fun r => ¬ vt.isDeletion r) := by
  obtain ⟨hinv, hsup, hlead⟩ := @mergedTable_seek _ _ _ want true hok
  have hnew {r : R} (h : newest vt.key tables want = some r) : vt.key r = want :=
    ((newest_eq_some hok.sorted).mp h).1
  unfold mergedLookup
  rcases mergedIterNext_spec hinv hok with ⟨hnone, hall⟩ | ⟨r, mi', hsome, hr, hns, -, -, -, hleast⟩
  · rw [hnone]
    cases hn : newest vt.key tables want with
    | none => rfl
    | some r =>
      have hkey := hnew hn
      obtain ⟨-, hdel⟩ := hall r ((hlead r).mpr ⟨by rw [hkey, hn], hkey.ge⟩)
      simp [Option.filter, hdel]
  · rw [hsome]
    simp only [Suppressed, hsup, true_and] at hns
    obtain ⟨hrn, hrw⟩ := (hlead r).mp hr
    by_cases hkey : vt.key r = want
    · rw [← hkey, hrn]
      simp [Option.filter, hns]
    · simp only [if_neg hkey]
      cases hn : newest vt.key tables want with
      | none => rfl
      | some s =>
        have hs := hnew hn
        by_contra hne
        have hdel : vt.isDeletion s ≠ true := fun hdel => hne (by simp [Option.filter, hdel])
        have hle := hleast s ((hlead s).mpr ⟨by rw [hs, hn], hs.ge⟩) (fun hc => hdel hc.2)
        exact hkey (le_antisymm (hle.trans_eq hs) hrw)

theorem mergedIterDrain_eq_newest (hok : TablesOk vt tables)
    (hwant : ∀ table ∈ tables, ∀ r ∈ table, want ≤ vt.key r) :
    let records := mergedIterDrain vt (mergedIterSeek vt (mergedTableInitIter tables false) want)
    Sorted vt.key records ∧ ∀ k, Overlay.find vt.key records k = newest vt.key tables k := by
  intro records
  obtain ⟨hinv, hsup, hlead⟩ := @mergedTable_seek _ _ _ want false hok
  obtain ⟨hsorted, hmem⟩ := mergedIterDrain_spec hinv hok
  refine ⟨hsorted, fun k => Option.ext fun r => ?_⟩
  rw [Overlay.find_eq_some hsorted, hmem, hlead, Suppressed, hsup]
  constructor
  · rintro ⟨⟨⟨hn, -⟩, -⟩, rfl⟩
    exact hn
  · intro hn
    obtain ⟨rfl, i, ⟨table, htable, hr⟩, -⟩ := (newest_eq_some hok.sorted).mp hn
    exact ⟨⟨⟨hn, hwant table (List.mem_of_getElem? htable) r hr⟩, by simp⟩, rfl⟩

end Tables

end GitCore.Reftable
