import GitCore.Stack.Invariant

/-!
# The view of a shared stack

The merged refs of the tables in `tables.list` are those of the committed additions, applied one
after another.
-/

namespace GitCore.Stack

open Reftable Range
open Overlay (newest find)

variable {Name Pid : Type} {opts : WriteOptions}

abbrev RefView := CString → Option RefRecord

def applyTable (view : RefView) (table : RefTable opts) : RefView := fun refname =>
  match find RefRecord.key table.refs.records refname.bytes with
  | some ref => if ref.isDeletion then none else some ref
  | none => view refname

def applyAddition (view : RefView) (newTables : List (RefTable opts)) : RefView :=
  newTables.foldl applyTable view

def committedView (additions : List (List (RefTable opts))) : RefView :=
  additions.foldl applyAddition fun _ => none

def Dir.committedTables (d : Dir Name Pid opts) : List (List (RefTable opts)) :=
  d.committed.map (·.filterMap d.given)

section Read

variable {tables newer : List (RefTable opts)}

lemma stackReadRef_eq (tables : List (RefTable opts)) (refname : CString) :
    stackReadRef tables refname =
      (newest RefRecord.key (tables.map (·.refs.records)) refname.bytes).filter (fun r => ¬ r.isDeletion) :=
  mergedLookup_eq_newest (tablesOk_refs tables) refname.bytes

lemma stackReadRef_concat (tables : List (RefTable opts)) (table : RefTable opts) :
    stackReadRef (tables ++ [table]) = applyTable (stackReadRef tables) table := by
  funext refname
  rw [stackReadRef_eq, applyTable, stackReadRef_eq, List.map_append, Overlay.newest_append, List.map_singleton,
    Overlay.newest_singleton]
  cases find RefRecord.key table.refs.records refname.bytes with
  | none => simp
  | some ref => by_cases h : ref.isDeletion <;> simp [h]

lemma stackReadRef_append (tables newer : List (RefTable opts)) :
    stackReadRef (tables ++ newer) = applyAddition (stackReadRef tables) newer := by
  induction newer using List.reverseRecOn with
  | nil => simp [applyAddition]
  | append_singleton newer table ih =>
    rw [← List.append_assoc, stackReadRef_concat, ih, applyAddition, applyAddition, List.foldl_append]
    rfl

lemma stackReadRef_nil : stackReadRef ([] : List (RefTable opts)) = fun _ => none := by
  funext refname
  simp [stackReadRef_eq]

end Read

section Replace

variable {blockError : BlockError opts} {d : Dir Name Pid opts} {tables : List (Table Name opts)}
  {c : CompactRange} {result : Option (RefTable opts)}

lemma known_filterMap (h : ∀ t ∈ tables, Known d t) :
    (tableNames tables).filterMap d.given = tables.map Prod.snd := by
  induction tables with
  | nil => rfl
  | cons t tables ih =>
    have hrest := ih fun u hu => h u (by simp [hu])
    simp only [tableNames] at hrest
    simp [tableNames, (h t (by simp)).2, hrest]

lemma range_filterMap (h : ∀ t ∈ tables, Known d t) (hc : c.first ≤ c.last) :
    (c.range (tableNames tables)).filterMap d.given =
      ((tables.map Prod.snd).drop c.first).take (c.last - c.first + 1) := by
  have hrange : c.range (tableNames tables) = tableNames (c.range tables) := by
    simp [CompactRange.range, tableNames, List.map_take, List.map_drop]
  have hknown : ∀ t ∈ c.range tables, Known d t := fun t ht =>
    h t ((List.take_subset _ _) ((List.drop_subset _ _) ht))
  rw [hrange, known_filterMap hknown, CompactRange.range, List.map_drop, List.map_take, List.drop_take,
    show c.last + 1 - c.first = c.last - c.first + 1 by omega]

lemma newest_writtenTable (older newer : List (RefTable opts)) (wr : Writer opts) (k : List UInt8) :
    newest RefRecord.key ((older ++ (writtenTable wr).toList ++ newer).map (·.refs.records)) k =
      newest RefRecord.key
        (older.map (·.refs.records) ++ wr.refs.records :: newer.map (·.refs.records)) k := by
  unfold writtenTable
  split_ifs with hempty
  · rw [hempty.1, Overlay.newest_nil_cons]
    simp
  · simp [writerClose]

lemma stackReadRef_replace {older newer : List (RefTable opts)} (hresult : CompactResult blockError tables c result)
    (holder : c.first = 0 → older = []) :
    stackReadRef (older ++ result.toList ++ newer) =
      stackReadRef (older ++ ((tables.map Prod.snd).drop c.first).take (c.last - c.first + 1) ++ newer) := by
  obtain ⟨hfirst, hlast, wr, hwr, rfl⟩ := hresult
  funext refname
  have hfind := stackWriteCompact_findRef (older.map (·.refs.records)) hwr
    (fun h0 => by simp [holder h0]) refname.bytes
  have hreplace := Overlay.newest_replace (newer.map (·.refs.records)) hfind
  rw [← List.map_append, ← List.map_append] at hreplace
  rw [stackReadRef_eq, stackReadRef_eq, newest_writtenTable]
  exact hreplace

end Replace

/-- The history of the list: its tables come, without repetition and in the order of the commits,
from the committed additions, and show what they wrote. -/
structure History (d : Dir Name Pid opts) : Prop where
  listed : ∀ n ∈ d.committed.flatten, n ∈ d.listed
  nodup : d.committed.flatten.Nodup
  origin : (d.tablesList.flatMap d.origin).Sublist d.committed.flatten
  view : stackReadRef (d.tablesList.filterMap d.given) = committedView d.committedTables

section History

variable {blockError : BlockError opts} {p : Pid} {d d' : Dir Name Pid opts}

lemma History.init : History (Dir.init : Dir Name Pid opts) where
  listed n hn := by simp [Dir.init] at hn
  nodup := by simp [Dir.init]
  origin := by simp [Dir.init]
  view := stackReadRef_nil

lemma DirInv.tables_eq (hd : DirInv d) : d.tables = d.tablesList.filterMap d.given := by
  refine List.filterMap_congr fun n hn => ?_
  obtain ⟨table, ht⟩ := hd.present n hn
  rw [ht, hd.files n table ht]

variable {newTables : List (Table Name opts)}

lemma NewTables.filterMap (h : NewTables d newTables) :
    (tableNames newTables).filterMap d.given = newTables.map Prod.snd := by
  have hgiven := h.2
  induction newTables with
  | nil => rfl
  | cons t newTables ih =>
    have hrest := ih ⟨(List.nodup_cons.mp h.1).2, fun u hu => hgiven u (by simp [hu])⟩
      fun u hu => hgiven u (by simp [hu])
    simp only [tableNames] at hrest
    simp [tableNames, (hgiven t (by simp)).1.2.1, hrest]

lemma NewTables.flatMap_origin (h : NewTables d newTables) :
    (tableNames newTables).flatMap d.origin = tableNames newTables := by
  rw [List.flatMap_congr (g := fun n => [n]) fun n hn => ?_, List.flatMap_singleton']
  obtain ⟨t, ht, rfl⟩ := List.mem_map.mp hn
  exact (h.2 t ht).2

lemma NewName.result {tables : List (Table Name opts)} {c : CompactRange} {newTable : Option Name}
    (h : NewName blockError d tables c newTable) :
    ∃ result, CompactResult blockError tables c result ∧
      newTable.toList.filterMap d.given = result.toList := by
  cases newTable with
  | none => exact ⟨none, h, rfl⟩
  | some n =>
    obtain ⟨table, hresult, hfresh, -⟩ := h
    exact ⟨some table, hresult, by simp [hfresh.2.1]⟩

lemma History.commit (h : History d) (hnew : NewTables d newTables) :
    History (d.commit d.tablesList (tableNames newTables)) where
  listed n hn := by
    simp only [Dir.commit, Dir.replaceList, List.flatten_append, List.mem_append, List.flatten_singleton]
      at hn ⊢
    exact hn.imp_left (h.listed n)
  nodup := by
    simp only [Dir.commit, List.flatten_append, List.flatten_singleton]
    refine h.nodup.append hnew.1 fun n hn hn' => ?_
    obtain ⟨table, hfresh⟩ := hnew.fresh hn'
    exact hfresh.1 (h.listed n hn)
  origin := by
    simp only [Dir.commit, Dir.replaceList, List.flatten_append, List.flatten_singleton, List.flatMap_append,
      hnew.flatMap_origin]
    exact h.origin.append_right _
  view := by
    simp only [Dir.commit, Dir.replaceList, Dir.committedTables, List.filterMap_append, List.map_append]
    rw [stackReadRef_append, h.view]
    simp [committedView, Dir.committedTables]

lemma History.create {n : Name} {table : RefTable opts} {origin : List Name} [DecidableEq Name]
    (h : History d) (hd : DirInv d) (hn : d.given n = none) : History (d.create n table origin) := by
  have hne : ∀ m ∈ d.listed, m ≠ n := by
    rintro m hm rfl
    obtain ⟨t, ht⟩ := hd.given m hm
    exact absurd (hn.symm.trans ht) (by simp)
  have hgiven : ∀ names : List Name, (∀ m ∈ names, m ∈ d.listed) →
      names.filterMap (d.create n table origin).given = names.filterMap d.given := fun names hnames =>
    List.filterMap_congr fun m hm => Function.update_of_ne (hne m (hnames m hm)) _ _
  refine ⟨h.listed, h.nodup, ?_, ?_⟩
  · have horigin : d.tablesList.flatMap (d.create n table origin).origin = d.tablesList.flatMap d.origin :=
      List.flatMap_congr fun m hm => Function.update_of_ne (hne m (hd.listed m hm)) _ _
    exact horigin ▸ h.origin
  · have hcommitted : (d.create n table origin).committedTables = d.committedTables :=
      List.map_congr_left fun names hnames => hgiven names fun m hm =>
        h.listed m (List.mem_flatten_of_mem hnames hm)
    rw [hcommitted, ← h.view]
    exact congrArg stackReadRef (hgiven d.tablesList hd.listed)

lemma History.replace {tables : List (Table Name opts)} {c : CompactRange} {before after : List Name}
    {newTable : Option Name} (h : History d) (hc : c.InBounds tables) (hknown : ∀ t ∈ tables, Known d t)
    (hloc : Located d tables c before after) (hnew : NewName blockError d tables c newTable) :
    History (d.replaceList (before ++ newTable.toList ++ after) newTable.toList) where
  listed n hn := List.mem_append_left _ (h.listed n hn)
  nodup := h.nodup
  origin := by
    have horigin := h.origin
    rw [hloc.list] at horigin
    refine List.Sublist.trans ?_ horigin
    simp only [Dir.replaceList, List.flatMap_append]
    refine ((List.Sublist.refl _).append ?_).append (List.Sublist.refl _)
    cases newTable with
    | none => simp
    | some n =>
      obtain ⟨table, -, -, hn⟩ := hnew
      simp [hn]
  view := by
    have hview := h.view
    have holder : c.first = 0 → before.filterMap d.given = [] := fun h0 => by simp [hloc.front h0]
    obtain ⟨result, hresult, heq⟩ := hnew.result
    rw [hloc.list, List.filterMap_append, List.filterMap_append, range_filterMap hknown hc.first_le,
      ← stackReadRef_replace hresult holder] at hview
    simp only [Dir.replaceList, List.filterMap_append, heq]
    exact hview

lemma Effect.history [DecidableEq Name] (h : Effect blockError p d d') (hd : DirInv d) (hh : History d) :
    History d' := by
  cases h with
  | commit tables newTables _ _ _ hnew => exact hh.commit hnew
  | replace tables c before after newTable _ hc hknown hloc _ hnew => exact hh.replace hc hknown hloc hnew
  | create n table origin hn => exact hh.create hd hn
  | _ => exact ⟨hh.listed, hh.nodup, hh.origin, hh.view⟩

end History

section Reachable

variable [DecidableEq Name] [DecidableEq Pid] {blockError : BlockError opts}
  {writes : List (RefTable opts) → RefTable opts → Prop} {s s' : System Name Pid opts}

lemma Step.effect (h : Step blockError writes s s') (hs : Inv blockError s) :
    ∃ p, Effect blockError p s.dir s'.dir := by
  obtain ⟨p, s, d', proc', hstep⟩ := h
  exact ⟨p, hstep.effect hs.dir (hs.procs p)⟩

lemma Reachable.history (h : Reachable blockError writes s) : History s.dir := by
  induction h with
  | refl => exact History.init
  | tail hreach hstep ih =>
    have hs := Reachable.inv hreach
    obtain ⟨p, heffect⟩ := hstep.effect hs
    exact heffect.history hs.dir ih

end Reachable

end GitCore.Stack
