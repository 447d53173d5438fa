import GitCore.Reftable.Compact

/-!
# What a seek and an iteration yield

From any state of a merged iterator, a seek and the calls after it yield the newest record of
every key from the wanted one on. For refs this always holds; for logs it holds when
`reftable_log_record_cmp_void` is right about the records of different tables.
-/

namespace GitCore.Reftable

open Overlay (Sorted newest)

section Yields

variable {R : Type} {vt : RecordVtable R} {tables : List (List R)} {mi : MergedIter R}

/-- An iterator over `tables`, at any point of an iteration. -/
structure Over (tables : List (List R)) (mi : MergedIter R) : Prop where
  records : mi.subiters.map (·.records) = tables
  suffix : ∀ sub ∈ mi.subiters, sub.rest <:+ sub.records

/-- Each key from `want` on once and in increasing order, with its newest record; the keys
whose newest record is a deletion are left out when deletions are suppressed. -/
def YieldsNewest (vt : RecordVtable R) (tables : List (List R)) (want : List UInt8) (suppressDeletions : Bool)
    (records : List R) : Prop :=
  Sorted vt.key records ∧ ∀ r, r ∈ records ↔
    want ≤ vt.key r ∧ newest vt.key tables (vt.key r) = some r ∧
      (suppressDeletions = true → vt.isDeletion r = false)

lemma over_init (tables : List (List R)) (suppressDeletions : Bool) :
    Over tables (mergedTableInitIter tables suppressDeletions) :=
  ⟨by simp [mergedTableInitIter, Function.comp_def], by simp [mergedTableInitIter]⟩

lemma seek_fields (mi : MergedIter R) (want : List UInt8) :
    (mergedIterSeek vt mi want).advanceIndex = none ∧
      (mergedIterSeek vt mi want).suppressDeletions = mi.suppressDeletions :=
  seekSubiters_fields (List.range mi.subiters.length) { mi with advanceIndex := none, pq := #[] }

lemma Over.leading_seek (h : Over tables mi) (hok : TablesOk vt tables) (want : List UInt8) (r : R) :
    Leading vt (mergedIterSeek vt mi want) r ↔
      want ≤ vt.key r ∧ newest vt.key tables (vt.key r) = some r := by
  obtain ⟨-, hpend⟩ := @mergedIterSeek_spec _ _ _ _ want h.records h.suffix hok
  rw [Overlay.newest_eq_some hok.sorted]
  constructor
  · rintro ⟨i, hi, hmax⟩
    obtain ⟨table, htable, hr, hk⟩ := (hpend i r).mp hi
    exact ⟨hk, rfl, i, ⟨table, htable, hr⟩, fun j t s ht hs hks =>
      hmax j s ((hpend j s).mpr ⟨t, ht, hs, hks ▸ hk⟩) hks⟩
  · rintro ⟨hk, -, i, ⟨table, htable, hr⟩, hmax⟩
    refine ⟨i, (hpend i r).mpr ⟨table, htable, hr, hk⟩, fun j s hs hks => ?_⟩
    obtain ⟨t, ht, hst, -⟩ := (hpend j s).mp hs
    exact hmax j t s ht hst hks

theorem Over.yieldsNewest (h : Over tables mi) (hok : TablesOk vt tables) (want : List UInt8) :
    YieldsNewest vt tables want mi.suppressDeletions (mergedIterDrain vt (mergedIterSeek vt mi want)) := by
  obtain ⟨hinv, -⟩ := @mergedIterSeek_spec _ _ _ _ want h.records h.suffix hok
  obtain ⟨hadv, hsup⟩ := @seek_fields _ vt mi want
  obtain ⟨hsorted, hmem⟩ := mergedIterDrain_spec (by rw [hadv]; exact hinv) hok
  refine ⟨hsorted, fun r => ?_⟩
  rw [hmem, h.leading_seek hok want, Suppressed, hsup, and_assoc]
  simp only [not_and, Bool.not_eq_true]

end Yields

/-- `reftable_log_record_cmp_void` is right about the records of one ref in different tables. -/
def LogRecordsComparable (tables : List (List LogRecord)) : Prop :=
  tables.Pairwise fun table table' => ∀ a ∈ table, ∀ b ∈ table',
    a.refname = b.refname →
      IndexComparable a.updateIndex b.updateIndex ∧ IndexComparable b.updateIndex a.updateIndex

lemma tablesOk_refRecords {tables : List (List RefRecord)} (h : ∀ table ∈ tables, Sorted RefRecord.key table) :
    TablesOk refVtable tables where
  sorted := h
  self r := refVtable_cmpExact r r
  exact := List.pairwise_of_forall fun _ _ r _ s _ => ⟨refVtable_cmpExact r s, refVtable_cmpExact s r⟩

lemma tablesOk_logRecords {tables : List (List LogRecord)}
    (h : ∀ table ∈ tables, Sorted LogRecord.key table) (hcmp : LogRecordsComparable tables) :
    TablesOk logVtable tables where
  sorted := h
  self r := logVtable_cmpExact fun _ => by simp [IndexComparable]
  exact := hcmp.imp fun {t t'} hpair a ha b hb =>
    ⟨logVtable_cmpExact fun hname => (hpair a ha b hb hname).1,
      logVtable_cmpExact fun hname => (hpair a ha b hb hname.symm).2⟩

lemma logRecordsComparable_example : LogRecordsComparable [[exampleLog 1], [exampleLog 2]] := by
  refine List.pairwise_pair.mpr fun a ha b hb _ => ?_
  obtain rfl : a = exampleLog 1 := by simpa using ha
  obtain rfl : b = exampleLog 2 := by simpa using hb
  exact ⟨indexComparable_of_near (by decide) (by decide), indexComparable_of_near (by decide) (by decide)⟩

end GitCore.Reftable
