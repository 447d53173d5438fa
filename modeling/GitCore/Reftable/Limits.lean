import GitCore.Reftable.Compact

/-!
# Update-index limits

The limits of a table bound the update indices of its records, also after a compaction.
-/

namespace GitCore.Reftable

variable {opts : WriteOptions}

/-- Refs lie within the limits; log entries other than tombstones are checked from above only. -/
structure RefTable.Within (table : RefTable opts) : Prop where
  refs : ∀ ref ∈ table.refs.records,
    table.minUpdateIndex ≤ ref.updateIndex ∧ ref.updateIndex ≤ table.maxUpdateIndex
  logs : ∀ log ∈ table.logs.records, ¬ log.isDeletion → log.updateIndex ≤ table.maxUpdateIndex

section Writer

variable {blockError : BlockError opts} {wr wr' : Writer opts}

lemma writerAddRef_within {ref : RefRecord} (h : writerAddRef blockError wr ref = .ok wr')
    (hwr : (writerClose wr).Within) : (writerClose wr').Within ∧
      wr'.minUpdateIndex = wr.minUpdateIndex ∧ wr'.maxUpdateIndex = wr.maxUpdateIndex := by
  unfold writerAddRef at h
  split_ifs at h with hlimits
  rw [not_or, UInt64.not_lt, gt_iff_lt, UInt64.not_lt] at hlimits
  split at h
  · cases h
  · next hadd =>
    split at h
    · cases h
    · cases h
      refine ⟨⟨fun r hr => ?_, hwr.logs⟩, rfl, rfl⟩
      simp only [writerClose, RecordSection.add_eq_some hadd, List.mem_append, List.mem_singleton] at hr
      rcases hr with hr | rfl
      · exact hwr.refs r hr
      · exact hlimits

lemma cleanLog_index {log cleaned : LogRecord} (h : cleanLog opts log = some cleaned) :
    cleaned.updateIndex = log.updateIndex ∧ cleaned.isDeletion = log.isDeletion := by
  unfold cleanLog at h
  split at h
  · cases h
    exact ⟨rfl, rfl⟩
  · next value hv =>
    split_ifs at h
    · cases h
      exact ⟨rfl, rfl⟩
    · obtain ⟨message, -, rfl⟩ := Option.map_eq_some_iff.mp h
      simp [LogRecord.isDeletion, hv]

lemma writerAddLog_within {log : LogRecord} (h : writerAddLog blockError wr log = .ok wr')
    (hwr : (writerClose wr).Within) : (writerClose wr').Within ∧
      wr'.minUpdateIndex = wr.minUpdateIndex ∧ wr'.maxUpdateIndex = wr.maxUpdateIndex := by
  unfold writerAddLog at h
  split_ifs at h with hlimit
  split at h
  · cases h
  · next cleaned hcleaned =>
    obtain ⟨hindex, hdel⟩ := cleanLog_index hcleaned
    unfold writerAddLogVerbatim at h
    split at h
    · cases h
    · next hadd =>
      split at h
      · cases h
      · cases h
        refine ⟨⟨hwr.refs, fun l hl hldel => ?_⟩, rfl, rfl⟩
        simp only [writerClose, RecordSection.add_eq_some hadd, List.mem_append, List.mem_singleton] at hl
        rcases hl with hl | rfl
        · exact hwr.logs l hl hldel
        · rw [hdel] at hldel
          have hle : ¬ log.updateIndex > wr.maxUpdateIndex := fun hgt => hlimit ⟨hldel, hgt⟩
          rw [hindex]
          exact UInt64.not_lt.mp hle

lemma within_of_empty (hrefs : wr.refs.records = []) (hlogs : wr.logs.records = []) :
    (writerClose wr).Within :=
  ⟨fun r hr => by simp [writerClose, hrefs] at hr, fun l hl => by simp [writerClose, hlogs] at hl⟩

lemma Written.within (h : Written blockError wr) : (writerClose wr).Within := by
  induction h with
  | new => exact within_of_empty rfl rfl
  | setLimits _ hset _ =>
    unfold writerSetLimits at hset
    split_ifs at hset with hempty
    simp only [not_or, not_not] at hempty
    cases hset
    exact within_of_empty hempty.1 hempty.2
  | addRef _ hadd ih => exact (writerAddRef_within hadd ih).1
  | addLog _ hadd ih => exact (writerAddLog_within hadd ih).1

end Writer

section Compact

variable {blockError : BlockError opts} {expired : LogRecord → Bool} {first last : Nat}
  {wr wr' : Writer opts}

lemma compactRefs_induction {P : Writer opts → Prop}
    (hadd : ∀ wr wr' ref, P wr → writerAddRef blockError wr ref = .ok wr' → P wr') {refs : List RefRecord}
    (h : compactRefs blockError first wr refs = .ok wr') (hwr : P wr) : P wr' := by
  induction refs generalizing wr with
  | nil =>
    cases h
    exact hwr
  | cons ref refs ih =>
    rw [compactRefs, List.foldlM_cons] at h
    split_ifs at h
    · exact ih h hwr
    · cases hok : writerAddRef blockError wr ref with
      | error err => rw [hok] at h; cases h
      | ok wr'' =>
        rw [hok] at h
        exact ih h (hadd _ _ _ hwr hok)

lemma compactLogs_induction {P : Writer opts → Prop}
    (hadd : ∀ wr wr' log, P wr → writerAddLog blockError wr log = .ok wr' → P wr') {logs : List LogRecord}
    (h : compactLogs blockError expired first wr logs = .ok wr') (hwr : P wr) : P wr' := by
  induction logs generalizing wr with
  | nil =>
    cases h
    exact hwr
  | cons log logs ih =>
    rw [compactLogs, List.foldlM_cons] at h
    split_ifs at h
    · exact ih h hwr
    · exact ih h hwr
    · cases hok : writerAddLog blockError wr log with
      | error err => rw [hok] at h; cases h
      | ok wr'' =>
        rw [hok] at h
        exact ih h (hadd _ _ _ hwr hok)

theorem stackWriteCompact_within {tables : List (RefTable opts)} {hfirst : first ≤ last}
    {hlast : last < tables.length} (hlt : first < tables.length)
    (h : stackWriteCompact blockError expired tables first last hfirst hlast = .ok wr) :
    (writerClose wr).Within ∧ wr.minUpdateIndex = tables[first].minUpdateIndex ∧
      wr.maxUpdateIndex = tables[last].maxUpdateIndex := by
  obtain ⟨wr₀, wr₁, hempty, hempty', hmin, hmax, hrefs, hlogs⟩ :=
    stackWriteCompact_eq_ok hlt h
  let P : Writer opts → Prop := fun wr => (writerClose wr).Within ∧
    wr.minUpdateIndex = tables[first].minUpdateIndex ∧ wr.maxUpdateIndex = tables[last].maxUpdateIndex
  have hstart : P wr₀ := ⟨within_of_empty hempty hempty', hmin, hmax⟩
  have hmid : P wr₁ := compactRefs_induction (fun wr wr' ref hwr hadd => by
    obtain ⟨hwithin, heqmin, heqmax⟩ := writerAddRef_within hadd hwr.1
    exact ⟨hwithin, heqmin.trans hwr.2.1, heqmax.trans hwr.2.2⟩) hrefs hstart
  exact compactLogs_induction (fun wr wr' log hwr hadd => by
    obtain ⟨hwithin, heqmin, heqmax⟩ := writerAddLog_within hadd hwr.1
    exact ⟨hwithin, heqmin.trans hwr.2.1, heqmax.trans hwr.2.2⟩) hlogs hmid

end Compact

end GitCore.Reftable
