import GitCore.Stack.View

/-!
# Safety of a shared stack

No listed table is ever unlinked, and the view is that of the committed additions.
-/

namespace GitCore.Stack

open Reftable

variable {Name Pid : Type} [DecidableEq Name] {opts : WriteOptions} {blockError : BlockError opts}
  {writes : List (RefTable opts) → RefTable opts → Prop}

section Step

variable {p : Pid} {d d' : Dir Name Pid opts} {proc proc' : Proc Name opts}

lemma Effect.removed (h : Effect blockError p d d') {n : Name} (hn : d.files n ≠ none)
    (hn' : d'.files n = none) : n ∉ d.tablesList := by
  cases h with
  | unlinkRetired m hm =>
    by_cases hnm : n = m
    · exact hnm ▸ hm.2
    · exact absurd (by simpa [Dir.unlink, hnm] using hn') hn
  | unlinkLocked m _ hm =>
    by_cases hnm : n = m
    · exact hnm ▸ hm
    · exact absurd (by simpa [Dir.unlink, hnm] using hn') hn
  | create m table origin _ =>
    by_cases hnm : n = m
    · simp [Dir.create, hnm] at hn'
    · exact absurd (by simpa [Dir.create, hnm] using hn') hn
  | _ => exact absurd hn' hn

lemma Effect.given (h : Effect blockError p d d') {n : Name} {table : RefTable opts}
    (hn : d.given n = some table) : d'.given n = some table := by
  cases h with
  | create m _ origin hm => exact (rely_create (q := p) hm).given n table hn
  | _ => exact hn

lemma ProcStep.committed (h : ProcStep blockError writes p d proc d' proc') :
    d'.committed = d.committed ∨ ∃ tables nextUpdateIndex newTables,
      proc = ⟨tables, .addition nextUpdateIndex newTables⟩ ∧
      d' = d.commit (tableNames tables) (tableNames newTables) := by
  cases h with
  | additionCommit tables nextUpdateIndex newTables _ => exact .inr ⟨tables, nextUpdateIndex, newTables, rfl, rfl⟩
  | _ => exact .inl rfl

lemma Effect.committedTables (h : Effect blockError p d d') (hd : DirInv d) (hh : History d)
    (hc : d'.committed = d.committed) : d'.committedTables = d.committedTables := by
  rw [Dir.committedTables, hc]
  refine List.map_congr_left fun names hnames => List.filterMap_congr fun n hn => ?_
  obtain ⟨table, ht⟩ := hd.given n (hh.listed n (List.mem_flatten_of_mem hnames hn))
  rw [ht, h.given ht]

end Step

section Run

variable [DecidableEq Pid] {s : System Name Pid opts}

/-- Every listed table exists, and no step of a process removes a file that is listed. -/
theorem reachable_present (h : Reachable blockError writes s) :
    (∀ n ∈ s.dir.tablesList, ∃ table, s.dir.files n = some table) ∧
      ∀ s', Step blockError writes s s' →
        ∀ n, s.dir.files n ≠ none → s'.dir.files n = none → n ∉ s.dir.tablesList := by
  have hinv := h.inv
  refine ⟨hinv.dir.present, fun s' hstep n hn hn' => ?_⟩
  obtain ⟨p, heffect⟩ := hstep.effect hinv
  exact heffect.removed hn hn'

/-- Readers see exactly the committed additions, applied in the order of their commits. A step either
commits one addition or leaves the view alone. -/
theorem reachable_view (h : Reachable blockError writes s) :
    stackReadRef s.dir.tables = committedView s.dir.committedTables ∧
      s.dir.committed.flatten.Nodup ∧
      (s.dir.tablesList.flatMap s.dir.origin).Sublist s.dir.committed.flatten ∧
      ∀ s', Step blockError writes s s' →
        (s'.dir.committedTables = s.dir.committedTables ∧
          stackReadRef s'.dir.tables = stackReadRef s.dir.tables) ∨
        ∃ p tables nextUpdateIndex newTables,
          s.procs p = ⟨tables, .addition nextUpdateIndex newTables⟩ ∧
          s'.dir.committedTables = s.dir.committedTables ++ [newTables.map Prod.snd] ∧
          stackReadRef s'.dir.tables =
            applyAddition (stackReadRef s.dir.tables) (newTables.map Prod.snd) := by
  have hread {s : System Name Pid opts} (h : Reachable blockError writes s) :
      stackReadRef s.dir.tables = committedView s.dir.committedTables := by
    rw [h.inv.dir.tables_eq, h.history.view]
  refine ⟨hread h, h.history.nodup, h.history.origin, fun s' hstep => ?_⟩
  have hread' := hread (h.tail hstep)
  have hinv := h.inv
  obtain ⟨p, s, d', proc', hproc⟩ := hstep
  rcases hproc.committed with hsame | ⟨tables, nextUpdateIndex, newTables, hp, rfl⟩
  · have hcommitted := (hproc.effect hinv.dir (hinv.procs p)).committedTables hinv.dir h.history hsame
    exact .inl ⟨hcommitted, by rw [hread', hread h]; exact congrArg committedView hcommitted⟩
  · have hnew : NewTables s.dir newTables := by
      have hpc := (hinv.procs p).pc
      rw [hp] at hpc
      exact hpc.2.2.2
    have hcommitted : (s.dir.commit (tableNames tables) (tableNames newTables)).committedTables =
        s.dir.committedTables ++ [newTables.map Prod.snd] := by
      rw [← hnew.filterMap]
      simp [Dir.commit, Dir.replaceList, Dir.committedTables]
    refine .inr ⟨p, tables, nextUpdateIndex, newTables, hp, hcommitted, ?_⟩
    rw [hread', hread h]
    exact (congrArg committedView hcommitted).trans (List.foldl_concat ..)

end Run

section Example

variable (blockError writes)

def SoloRun (p : Pid) (d : Dir Name Pid opts) (proc : Proc Name opts) : Prop :=
  Relation.ReflTransGen (fun x y : Dir Name Pid opts × Proc Name opts =>
    ProcStep blockError writes p x.1 x.2 y.1 y.2) (.init, ⟨[], .closed⟩) (d, proc)

variable {blockError writes} {p : Pid} {d d' : Dir Name Pid opts} {proc proc' : Proc Name opts}

lemma SoloRun.start : SoloRun blockError writes p (.init : Dir Name Pid opts) ⟨[], .closed⟩ :=
  Relation.ReflTransGen.refl

lemma SoloRun.step (h : SoloRun blockError writes p d proc)
    (hstep : ProcStep blockError writes p d proc d' proc') : SoloRun blockError writes p d' proc' :=
  Relation.ReflTransGen.tail (b := (d, proc)) (c := (d', proc')) h hstep

lemma SoloRun.reachable [DecidableEq Pid] (h : SoloRun blockError writes p d proc) :
    ∃ s : System Name Pid opts, Reachable blockError writes s ∧ s.dir = d ∧ s.procs p = proc := by
  have hrun : ∀ x : Dir Name Pid opts × Proc Name opts, Relation.ReflTransGen
      (fun x y => ProcStep blockError writes p x.1 x.2 y.1 y.2) (.init, ⟨[], .closed⟩) x →
      ∃ s : System Name Pid opts, Reachable blockError writes s ∧ s.dir = x.1 ∧ s.procs p = x.2 := by
    intro x hx
    induction hx with
    | refl => exact ⟨.init, .refl, rfl, rfl⟩
    | tail _ hstep ih =>
      obtain ⟨s, hs, hd, hp⟩ := ih
      rw [← hd, ← hp] at hstep
      exact ⟨_, hs.tail (.step p s _ _ hstep), rfl, by simp⟩
  exact hrun (d, proc) h

def exampleWriter (updateIndex : UInt64) : Writer exampleOptions where
  minUpdateIndex := updateIndex
  maxUpdateIndex := updateIndex
  refs := ⟨[⟨exampleName, updateIndex, .val1 [1]⟩], List.pairwise_singleton _ _⟩
  logs := .empty
  logs_clean := by simp [RecordSection.empty]

lemma exampleWritten (updateIndex : UInt64) :
    Written (.never exampleOptions) (exampleWriter updateIndex) := by
  have hset : writerSetLimits (writerNew exampleOptions) updateIndex updateIndex =
      .ok { writerNew exampleOptions with minUpdateIndex := updateIndex, maxUpdateIndex := updateIndex } := rfl
  have hadd : writerAddRef (.never exampleOptions)
      { writerNew exampleOptions with minUpdateIndex := updateIndex, maxUpdateIndex := updateIndex }
      ⟨exampleName, updateIndex, .val1 [1]⟩ = .ok (exampleWriter updateIndex) := by
    simp [writerAddRef, writerNew, RecordSection.add, RecordSection.lastKey, RecordSection.empty, exampleWriter,
      BlockError.never, RefRecord.key, exampleName]
  exact .addRef (.setLimits .new hset) hadd

lemma exampleMerge : ∃ wr, stackWriteCompact (.never exampleOptions) noExpiry
      [writerClose (exampleWriter 1), writerClose (exampleWriter 2)] 0 1 (by decide) (by decide) = .ok wr ∧
    ∃ table, writtenTable wr = some table := by
  have hrun : (match stackWriteCompact (.never exampleOptions) noExpiry
      [writerClose (exampleWriter 1), writerClose (exampleWriter 2)] 0 1 (by decide) (by decide) with
    | .ok wr => (writtenTable wr).isSome
    | .error _ => false) = true := by decide +kernel
  split at hrun
  · next wr hwr => exact ⟨wr, hwr, Option.isSome_iff_exists.mp hrun⟩
  · cases hrun

lemma exampleRun : ∃ (d : Dir Nat Nat exampleOptions) (tables : _) (k : _) (stale : _) (opened : _),
    SoloRun (.never exampleOptions) (fun _ _ => True) 0 d
      ⟨tables, .closing k (0 :: stale) opened⟩ ∧
    d.tablesList = [2] ∧ d.files 0 = some (writerClose (exampleWriter 1)) := by
  have h : SoloRun (.never exampleOptions) (fun _ _ => True) 0 (.init : Dir Nat Nat exampleOptions) ⟨[], .closed⟩ :=
    .start
  have h := h.step (.newStack _)
  have h := h.step (.readList _ _ _ _)
  have h := h.step (.opened _ _ _ _ _)
  have h := h.step (.reloaded _ _ _ _)
  have h := h.step (.lockList _ _ (.addition false) (.addition _) rfl)
  have h := h.step (.initAddition _ _ _ rfl)
  have h := h.step (.additionAdd _ _ _ _ 0 (exampleWriter 1) _ (exampleWritten 1) rfl trivial (by decide) rfl)
  have h := h.step (.additionCommit _ _ _ _ (by simp))
  have h := h.step (.readList _ _ _ _)
  have h := h.step (.openTable _ _ _ _ _ (writerClose (exampleWriter 1)) _ _ (fun _ => rfl) rfl)
  have h := h.step (.opened _ _ _ _ _)
  have h := h.step (.reloaded _ _ _ _)
  have h := h.step (.lockList _ _ (.addition false) (.addition _) rfl)
  have h := h.step (.initAddition _ _ _ rfl)
  have h := h.step (.additionAdd _ _ _ _ 1 (exampleWriter 2) _ (exampleWritten 2) rfl trivial (by decide) rfl)
  have h := h.step (.additionCommit _ _ _ _ (by simp))
  have h := h.step (.readList _ _ _ _)
  have h := h.step (.reuseTable _ _ _ _ (writerClose (exampleWriter 1)) _ _ rfl)
  have h := h.step (.openTable _ _ _ _ _ (writerClose (exampleWriter 2)) _ _ (fun _ => rfl) rfl)
  have h := h.step (.opened _ _ _ _ _)
  have h := h.step (.reloaded _ _ _ _)
  -- the compaction
  have h := h.step (.lockList _ _ _ (.compactAll none (by simp) (by simp)) rfl)
  have h := h.step (.compactBegin _ _ _ rfl)
  have h := h.step (.lockTable _ _ _ _ 1 (by decide) rfl rfl)
  have h := h.step (.lockTable _ _ _ _ 0 (by decide) rfl rfl)
  have h := h.step (.locked _ _ _)
  obtain ⟨wr, hwr, table, htable⟩ := exampleMerge
  have h := h.step (.merged _ _ _ _ _ wr hwr)
  rw [htable] at h
  have h := h.step (.relock _ _ _ _ rfl)
  have h := h.step (.relocateSame _ _ _ _ rfl)
  have h := h.step (.placeTable _ _ _ _ _ _ 2 rfl)
  have h := h.step (.replaceList _ _ _ _ _ _)
  have h := h.step (.readList _ _ _ _)
  have h := h.step (.openTable _ _ _ _ _ table _ _ (fun _ => rfl) rfl)
  have h := h.step (.opened _ _ _ _ _)
  exact ⟨_, _, _, _, _, h, rfl, rfl⟩

theorem reachable_present_compacted : ∃ s s' : System Nat Nat exampleOptions,
    Reachable (.never exampleOptions) (fun _ _ => True) s ∧ Step (.never exampleOptions) (fun _ _ => True) s s' ∧
    (∃ table, s.dir.files 2 = some table) ∧ s'.dir.files 0 = none ∧ 0 ∉ s.dir.tablesList := by
  obtain ⟨d, tables, k, stale, opened, hrun, hlist, hfile⟩ := exampleRun
  obtain ⟨s, hs, rfl, hproc⟩ := hrun.reachable
  have hstep : Step (.never exampleOptions) (fun _ _ => True) s
      ⟨s.dir.unlink 0, Function.update s.procs 0 ⟨tables, .closing k stale opened⟩⟩ :=
    .step 0 s _ _ (by rw [hproc]; exact .closeTable _ _ _ _ _ _)
  obtain ⟨hpresent, hremoved⟩ := reachable_present hs
  refine ⟨s, _, hs, hstep, hpresent 2 (by simp [hlist]), rfl, ?_⟩
  exact hremoved _ hstep 0 (by simp [hfile]) rfl

theorem reachable_view_compacted : ∃ s : System Nat Nat exampleOptions,
    Reachable (.never exampleOptions) (fun _ _ => True) s ∧ s.dir.tablesList = [2] ∧
    stackReadRef s.dir.tables = committedView s.dir.committedTables := by
  obtain ⟨d, tables, k, stale, opened, hrun, hlist, -⟩ := exampleRun
  obtain ⟨s, hs, rfl, -⟩ := hrun.reachable
  exact ⟨s, hs, hlist, (reachable_view hs).1⟩

end Example

end GitCore.Stack
