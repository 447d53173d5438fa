import GitCore.Lib.Range
import GitCore.Reftable.Compact
import GitCore.Stack.Model

/-!
# What a step may do to the directory

The changes that a process makes to the directory with what it must hold for them, and what every
other process may rely on while they happen.
-/

namespace GitCore.Stack

open Reftable Range

variable {Name Pid : Type} {opts : WriteOptions}

/-- A name that was taken out of `tables.list`. It never comes back. -/
def Retired (d : Dir Name Pid opts) (n : Name) : Prop :=
  n ∈ d.listed ∧ n ∉ d.tablesList

def Known (d : Dir Name Pid opts) (t : Table Name opts) : Prop :=
  t.1 ∈ d.listed ∧ d.given t.1 = some t.2

def Fresh (d : Dir Name Pid opts) (t : Table Name opts) : Prop :=
  t.1 ∉ d.listed ∧ d.given t.1 = some t.2 ∧ d.files t.1 = some t.2

def NewTables (d : Dir Name Pid opts) (newTables : List (Table Name opts)) : Prop :=
  (tableNames newTables).Nodup ∧ ∀ t ∈ newTables, Fresh d t ∧ d.origin t.1 = [t.1]

def CompactResult (blockError : BlockError opts) (tables : List (Table Name opts)) (c : CompactRange)
    (result : Option (RefTable opts)) : Prop :=
  ∃ hfirst hlast wr,
    stackWriteCompact blockError c.expired (tables.map Prod.snd) c.first c.last hfirst hlast = .ok wr ∧
    result = writtenTable wr

structure CompactRange.InBounds (c : CompactRange) (tables : List (Table Name opts)) : Prop where
  first_le : c.first ≤ c.last
  last_lt : c.last < tables.length
  two : c.first < c.last ∨ tables.length = 1

structure Located (d : Dir Name Pid opts) (tables : List (Table Name opts)) (c : CompactRange)
    (before after : List Name) : Prop where
  list : d.tablesList = before ++ c.range (tableNames tables) ++ after
  front : c.first = 0 → before = []

def NewName (blockError : BlockError opts) (d : Dir Name Pid opts) (tables : List (Table Name opts))
    (c : CompactRange) : Option Name → Prop
  | none => CompactResult blockError tables c none
  | some n => ∃ table, CompactResult blockError tables c (some table) ∧ Fresh d (n, table) ∧
      d.origin n = (c.range (tableNames tables)).flatMap d.origin

inductive Effect [DecidableEq Name] (blockError : BlockError opts) (p : Pid) (d : Dir Name Pid opts) :
    Dir Name Pid opts → Prop
  | same : Effect blockError p d d
  | lockList : d.listLock = none → Effect blockError p d (d.lockList p)
  | unlockList : d.listLock = some p → Effect blockError p d d.unlockList
  | lockTable (n : Name) : d.tableLock n = none → Effect blockError p d (d.lockTable p n)
  | unlockTable (n : Name) : d.tableLock n = some p → Effect blockError p d (d.unlockTable n)
  | unlinkRetired (n : Name) : Retired d n → Effect blockError p d (d.unlink n)
  | unlinkLocked (n : Name) : d.listLock = some p → n ∉ d.tablesList → Effect blockError p d (d.unlink n)
  | create (n : Name) (table : RefTable opts) (origin : List Name) : d.given n = none →
    Effect blockError p d (d.create n table origin)
  | commit (tables newTables : List (Table Name opts)) : d.listLock = some p →
    d.tablesList = tableNames tables → (∀ t ∈ tables, Known d t) → NewTables d newTables →
    Effect blockError p d (d.commit d.tablesList (tableNames newTables))
  | replace (tables : List (Table Name opts)) (c : CompactRange) (before after : List Name)
    (newTable : Option Name) : d.listLock = some p → c.InBounds tables → (∀ t ∈ tables, Known d t) →
    Located d tables c before after →
    (∀ n ∈ c.range (tableNames tables), d.tableLock n = some p) → NewName blockError d tables c newTable →
    Effect blockError p d (d.replaceList (before ++ newTable.toList ++ after) newTable.toList)

structure DirInv (d : Dir Name Pid opts) : Prop where
  nodup : d.tablesList.Nodup
  listed : ∀ n ∈ d.tablesList, n ∈ d.listed
  given : ∀ n ∈ d.listed, ∃ table, d.given n = some table
  files : ∀ n table, d.files n = some table → d.given n = some table
  present : ∀ n ∈ d.tablesList, ∃ table, d.files n = some table

structure Rely (q : Pid) (d d' : Dir Name Pid opts) : Prop where
  given : ∀ n table, d.given n = some table → d'.given n = some table
  origin : ∀ n, (∃ table, d.given n = some table) → d'.origin n = d.origin n
  listed : ∀ n ∈ d.listed, n ∈ d'.listed
  retired : ∀ n, Retired d n → Retired d' n
  listLock : d.listLock = some q → d'.listLock = some q
  tableLock : ∀ n, d.tableLock n = some q → d'.tableLock n = some q
  locked : d.listLock = some q → d'.tablesList = d.tablesList ∧ d'.listed = d.listed
  pending : d.listLock = some q → ∀ t, Fresh d t → d'.files t.1 = some t.2
  range : ∀ range front, range ≠ [] → (∀ n ∈ range, d.tableLock n = some q) →
    HasRange d.tablesList range front → HasRange d'.tablesList range front

variable {tables : List (Table Name opts)}

lemma range_ne_nil {c : CompactRange} (h : c.InBounds tables) :
    c.range (tableNames tables) ≠ [] := by
  have hle := h.first_le
  have hlt := h.last_lt
  intro heq
  have hlen := congrArg List.length heq
  simp only [CompactRange.range, tableNames, List.length_drop, List.length_take, List.length_map,
    List.length_nil] at hlen
  omega

section DirInv

variable {blockError : BlockError opts} {p q : Pid} {d : Dir Name Pid opts}

lemma DirInv.init : DirInv (Dir.init : Dir Name Pid opts) where
  nodup := List.nodup_nil
  listed n hn := by simp [Dir.init] at hn
  given n hn := by simp [Dir.init] at hn
  files n table h := by simp [Dir.init] at h
  present n hn := by simp [Dir.init] at hn

lemma DirInv.listed_of_mem {n : Name} (hd : DirInv d) (hn : n ∉ d.listed) : n ∉ d.tablesList :=
  fun h => hn (hd.listed n h)

lemma NewName.fresh {c : CompactRange} {newTable : Option Name}
    (h : NewName blockError d tables c newTable) {n : Name} (hn : n ∈ newTable.toList) :
    ∃ table, Fresh d (n, table) := by
  cases newTable with
  | none => simp at hn
  | some m =>
    obtain rfl : n = m := by simpa using hn
    obtain ⟨table, -, hfresh, -⟩ := h
    exact ⟨table, hfresh⟩

lemma NewTables.fresh {newTables : List (Table Name opts)} (h : NewTables d newTables) {n : Name}
    (hn : n ∈ tableNames newTables) : ∃ table, Fresh d (n, table) := by
  obtain ⟨⟨m, table⟩, ht, rfl⟩ := List.mem_map.mp hn
  exact ⟨table, (h.2 _ ht).1⟩

lemma DirInv.replaceList {names new : List Name} (hd : DirInv d) (hnodup : names.Nodup)
    (hnames : ∀ n ∈ names, n ∈ d.tablesList ∨ n ∈ new) (hnew : ∀ n ∈ new, ∃ table, Fresh d (n, table)) :
    DirInv (d.replaceList names new) where
  nodup := hnodup
  listed n hn := by
    rcases hnames n hn with h | h
    · exact List.mem_append_left _ (hd.listed n h)
    · exact List.mem_append_right _ h
  given n hn := by
    rcases List.mem_append.mp hn with h | h
    · exact hd.given n h
    · obtain ⟨table, hfresh⟩ := hnew n h
      exact ⟨table, hfresh.2.1⟩
  files := hd.files
  present n hn := by
    rcases hnames n hn with h | h
    · exact hd.present n h
    · obtain ⟨table, hfresh⟩ := hnew n h
      exact ⟨table, hfresh.2.2⟩

lemma Located.replaced {c : CompactRange} {before after : List Name}
    {newTable : Option Name} (hloc : Located d tables c before after)
    (hnew : NewName blockError d tables c newTable) (hd : DirInv d) :
    (before ++ newTable.toList ++ after).Nodup ∧
      ∀ n ∈ before ++ newTable.toList ++ after, n ∈ d.tablesList ∨ n ∈ newTable.toList := by
  have hnodup := hd.nodup
  rw [hloc.list] at hnodup
  have hrest : (before ++ after).Nodup :=
    hnodup.sublist (List.Sublist.append (List.sublist_append_left _ _) (List.Sublist.refl _))
  refine ⟨?_, fun n hn => ?_⟩
  · cases newTable with
    | none => simpa using hrest
    | some n =>
      obtain ⟨table, hfresh⟩ := hnew.fresh (n := n) (by simp)
      have hn := hd.listed_of_mem hfresh.1
      rw [hloc.list] at hn
      simp only [Option.toList_some, List.append_assoc, List.singleton_append]
      refine (List.nodup_middle).mpr (List.nodup_cons.mpr ⟨fun h => hn ?_, hrest⟩)
      rcases List.mem_append.mp h with h | h <;> simp [h]
  · rw [hloc.list]
    simp only [List.mem_append] at hn ⊢
    tauto

lemma rely_replaceList {names new : List Name} (hlock : d.listLock = some p) (hq : q ≠ p)
    (hnames : ∀ n ∈ names, n ∈ d.tablesList ∨ n ∈ new) (hnew : ∀ n ∈ new, ∃ table, Fresh d (n, table))
    (hrange : ∀ range front, range ≠ [] → (∀ n ∈ range, d.tableLock n = some q) →
      HasRange d.tablesList range front → HasRange names range front) :
    Rely q d (d.replaceList names new) where
  given _ _ h := h
  origin _ _ := rfl
  listed n hn := List.mem_append_left _ hn
  retired n hn := by
    refine ⟨List.mem_append_left _ hn.1, fun h => ?_⟩
    rcases hnames n h with h | h
    · exact hn.2 h
    · obtain ⟨table, hfresh⟩ := hnew n h
      exact hfresh.1 hn.1
  listLock h := absurd (hlock.symm.trans h) (by simpa using hq.symm)
  tableLock _ h := h
  locked h := absurd (hlock.symm.trans h) (by simpa using hq.symm)
  pending h := absurd (hlock.symm.trans h) (by simpa using hq.symm)
  range := hrange

end DirInv

section Effect

variable [DecidableEq Name] {blockError : BlockError opts} {p q : Pid} {d d' : Dir Name Pid opts}

lemma DirInv.unlink {n : Name} (hd : DirInv d) (hn : n ∉ d.tablesList) : DirInv (d.unlink n) where
  nodup := hd.nodup
  listed := hd.listed
  given := hd.given
  files m table h := by
    by_cases hm : m = n
    · simp [Dir.unlink, hm] at h
    · exact hd.files m table (by simpa [Dir.unlink, hm] using h)
  present m hm := by
    have hne : m ≠ n := by
      rintro rfl
      exact hn hm
    simpa [Dir.unlink, hne] using hd.present m hm

lemma DirInv.create {n : Name} {table : RefTable opts} {origin : List Name} (hd : DirInv d)
    (hn : d.given n = none) : DirInv (d.create n table origin) where
  nodup := hd.nodup
  listed := hd.listed
  given m hm := by
    obtain ⟨t, ht⟩ := hd.given m hm
    have hne : m ≠ n := by
      rintro rfl
      rw [hn] at ht
      cases ht
    exact ⟨t, by simpa [Dir.create, hne] using ht⟩
  files m t h := by
    by_cases hm : m = n
    · simpa [Dir.create, hm] using h
    · simpa [Dir.create, hm] using hd.files m t (by simpa [Dir.create, hm] using h)
  present m hm := by
    obtain ⟨t, ht⟩ := hd.present m hm
    have hne : m ≠ n := by
      rintro rfl
      rw [hd.files _ _ ht] at hn
      cases hn
    exact ⟨t, by simpa [Dir.create, hne] using ht⟩

lemma Effect.dirInv (h : Effect blockError p d d') (hd : DirInv d) : DirInv d' := by
  cases h with
  | same => exact hd
  | lockList _ => exact ⟨hd.nodup, hd.listed, hd.given, hd.files, hd.present⟩
  | unlockList _ => exact ⟨hd.nodup, hd.listed, hd.given, hd.files, hd.present⟩
  | lockTable n _ => exact ⟨hd.nodup, hd.listed, hd.given, hd.files, hd.present⟩
  | unlockTable n _ => exact ⟨hd.nodup, hd.listed, hd.given, hd.files, hd.present⟩
  | unlinkRetired n hn => exact hd.unlink hn.2
  | unlinkLocked n _ hn => exact hd.unlink hn
  | create n table origin hn => exact hd.create hn
  | commit tables newTables _ hnames hknown hnew =>
    have hreplaced : DirInv (d.replaceList (d.tablesList ++ tableNames newTables) (tableNames newTables)) := by
      refine hd.replaceList (hd.nodup.append hnew.1 fun n hn hn' => ?_) (fun n hn => List.mem_append.mp hn)
        fun n hn => hnew.fresh hn
      obtain ⟨table, hfresh⟩ := hnew.fresh hn'
      exact hd.listed_of_mem hfresh.1 hn
    exact ⟨hreplaced.nodup, hreplaced.listed, hreplaced.given, hreplaced.files, hreplaced.present⟩
  | replace tables c before after newTable _ hc hknown hloc hlock hnew =>
    obtain ⟨hnodup, hmem⟩ := hloc.replaced hnew hd
    exact hd.replaceList hnodup hmem fun n hn => hnew.fresh hn

lemma rely_unlink {n : Name} (hn : n ∈ d.listed ∨ d.listLock ≠ some q) : Rely q d (d.unlink n) where
  given _ _ h := h
  origin _ _ := rfl
  listed _ h := h
  retired _ h := h
  listLock h := h
  tableLock _ h := h
  locked _ := ⟨rfl, rfl⟩
  pending h t ht := by
    have hne : t.1 ≠ n := by
      rintro rfl
      exact hn.elim (fun hl => ht.1 hl) (fun hq => hq h)
    simpa [Dir.unlink, hne] using ht.2.2
  range _ _ _ _ h := h

lemma rely_create {n : Name} {table : RefTable opts} {origin : List Name} (hn : d.given n = none) :
    Rely q d (d.create n table origin) := by
  have hne : ∀ m t, d.given m = some t → m ≠ n := by
    rintro m t ht rfl
    exact absurd (hn.symm.trans ht) (by simp)
  refine ⟨fun m t ht => ?_, fun m hm => ?_, fun _ h => h, fun _ h => h, id, fun _ h => h,
    fun _ => ⟨rfl, rfl⟩, fun _ t ht => ?_, fun _ _ _ _ h => h⟩
  · simpa [Dir.create, hne m t ht] using ht
  · obtain ⟨t, ht⟩ := hm
    simp [Dir.create, hne m t ht]
  · simpa [Dir.create, hne _ _ ht.2.1] using ht.2.2

lemma Effect.rely (h : Effect blockError p d d') (hd : DirInv d) (hq : q ≠ p) : Rely q d d' := by
  cases h with
  | same => exact ⟨fun _ _ h => h, fun _ _ => rfl, fun _ h => h, fun _ h => h, id, fun _ h => h,
      fun _ => ⟨rfl, rfl⟩, fun _ t h => h.2.2, fun _ _ _ _ h => h⟩
  | lockList hfree => exact ⟨fun _ _ h => h, fun _ _ => rfl, fun _ h => h, fun _ h => h,
      fun h => absurd (hfree.symm.trans h) (by simp), fun _ h => h,
      fun _ => ⟨rfl, rfl⟩, fun _ t h => h.2.2, fun _ _ _ _ h => h⟩
  | unlockList hlock => exact ⟨fun _ _ h => h, fun _ _ => rfl, fun _ h => h, fun _ h => h,
      fun h => absurd (hlock.symm.trans h) (by simpa using hq.symm), fun _ h => h,
      fun _ => ⟨rfl, rfl⟩, fun _ t h => h.2.2, fun _ _ _ _ h => h⟩
  | lockTable n hfree =>
    refine ⟨fun _ _ h => h, fun _ _ => rfl, fun _ h => h, fun _ h => h, id, fun m hm => ?_,
      fun _ => ⟨rfl, rfl⟩, fun _ t h => h.2.2, fun _ _ _ _ h => h⟩
    have hne : m ≠ n := by
      rintro rfl
      exact absurd (hfree.symm.trans hm) (by simp)
    simpa [Dir.lockTable, hne] using hm
  | unlockTable n hlock =>
    refine ⟨fun _ _ h => h, fun _ _ => rfl, fun _ h => h, fun _ h => h, id, fun m hm => ?_,
      fun _ => ⟨rfl, rfl⟩, fun _ t h => h.2.2, fun _ _ _ _ h => h⟩
    have hne : m ≠ n := by
      rintro rfl
      exact absurd (hlock.symm.trans hm) (by simpa using hq.symm)
    simpa [Dir.unlockTable, hne] using hm
  | unlinkRetired n hn => exact rely_unlink (.inl hn.1)
  | unlinkLocked n hlock _ =>
    exact rely_unlink (.inr fun h => absurd (hlock.symm.trans h) (by simpa using hq.symm))
  | create n table origin hn => exact rely_create hn
  | commit tables newTables hlock hnames hknown hnew =>
    have hrely : Rely q d (d.replaceList (d.tablesList ++ tableNames newTables) (tableNames newTables)) :=
      rely_replaceList hlock hq (fun n hn => List.mem_append.mp hn) (fun n hn => hnew.fresh hn)
        fun range front _ _ h => h.append _
    exact ⟨hrely.given, hrely.origin, hrely.listed, hrely.retired, hrely.listLock, hrely.tableLock,
      hrely.locked, hrely.pending, hrely.range⟩
  | replace tables c before after newTable hlock hc hknown hloc hlocks hnew =>
    refine rely_replaceList hlock hq (hloc.replaced hnew hd).2 (fun n hn => hnew.fresh hn)
      fun range front hne howned h => ?_
    rw [hloc.list] at h
    refine h.replace (range_ne_nil hc) hne fun n hn hn' => ?_
    exact absurd ((howned n hn).symm.trans (hlocks n hn')) (by simpa using hq)

end Effect

end GitCore.Stack
