import GitCore.Stack.Effect

/-!
# The invariant of the processes

What holds for a process at each point of its code. The facts survive the changes of the other
processes, and every step makes only changes that they allow for.
-/

namespace GitCore.Stack

open Reftable Range

variable {Name Pid : Type} {opts : WriteOptions}

def Cont.HoldsList : Cont Name → Prop
  | .initAddition | .clean => True
  | .newStack | .reload | .compacted _ => False

def Locks (d : Dir Name Pid opts) (p : Pid) (locks : List Name) : Prop :=
  locks.Nodup ∧ ∀ n ∈ locks, d.tableLock n = some p

def ContInv (d : Dir Name Pid opts) (p : Pid) (k : Cont Name) : Prop :=
  (k.HoldsList → d.listLock = some p) ∧
    ∀ locks, k = .compacted locks → Locks d p locks ∧ ∀ n ∈ locks, Retired d n

def ReuseInv (d : Dir Name Pid opts) (tables : List (Table Name opts)) (reuseOpen : Bool) : Prop :=
  reuseOpen = false → ∀ n ∈ tableNames tables, Retired d n

structure RangeInv (d : Dir Name Pid opts) (p : Pid) (tables : List (Table Name opts)) (c : CompactRange) :
    Prop where
  bounds : c.InBounds tables
  locked : ∀ n ∈ c.range (tableNames tables), d.tableLock n = some p
  together : HasRange d.tablesList (c.range (tableNames tables)) (c.first = 0)

structure PlaceInv (d : Dir Name Pid opts) (p : Pid) (tables : List (Table Name opts)) (c : CompactRange)
    (names : List Name) (offset : Nat) : Prop where
  listLock : d.listLock = some p
  range : RangeInv d p tables c
  names_eq : names = d.tablesList
  located : ∃ before after, Located d tables c before after ∧ before.length = offset

variable (blockError : BlockError opts)

def PcInv (d : Dir Name Pid opts) (p : Pid) (tables : List (Table Name opts)) : Pc Name opts → Prop
  | .closed | .idle => True
  | .reloading reuseOpen k => ContInv d p k ∧ ReuseInv d tables reuseOpen
  | .opening reuseOpen k todo opened => ContInv d p k ∧ ReuseInv d tables reuseOpen ∧
      (∀ t ∈ opened, Known d t) ∧ (∀ n ∈ todo, n ∈ d.listed) ∧
      (∀ n ∈ tableNames tables, n ∉ tableNames opened → n ∉ todo → Retired d n) ∧
      (k.HoldsList → tableNames opened ++ todo = d.tablesList)
  | .closing k stale opened => ContInv d p k ∧ (∀ n ∈ stale, Retired d n) ∧
      (∀ t ∈ opened, Known d t) ∧ (k.HoldsList → tableNames opened = d.tablesList)
  | .checking b => d.listLock = some p ∧ ∀ c, b = .compact c → c.InBounds tables
  | .addition nextUpdateIndex newTables => d.listLock = some p ∧ d.tablesList = tableNames tables ∧
      nextUpdateIndex = stackNextUpdateIndex tables ∧ NewTables d newTables
  | .additionClose newTables => d.listLock = some p ∧ ∀ n ∈ newTables, n ∉ d.listed
  | .cleanReload => d.listLock = some p
  | .cleaning => d.listLock = some p ∧ d.tablesList = tableNames tables
  | .locking c i => d.listLock = some p ∧ d.tablesList = tableNames tables ∧ c.InBounds tables ∧
      c.first ≤ i ∧ i ≤ c.last + 1 ∧
      ∀ n ∈ CompactRange.range { c with first := i } (tableNames tables), d.tableLock n = some p
  | .merging c => RangeInv d p tables c
  | .relocking c result => RangeInv d p tables c ∧ CompactResult blockError tables c result
  | .relocating c result => d.listLock = some p ∧ RangeInv d p tables c ∧
      CompactResult blockError tables c result
  | .placing c result names offset => PlaceInv d p tables c names offset ∧
      CompactResult blockError tables c result
  | .replacing c names offset newTable => PlaceInv d p tables c names offset ∧
      NewName blockError d tables c newTable
  | .unlinking todo locks => (∀ n ∈ todo, Retired d n) ∧ Locks d p locks
  | .unlocking holdsList locks => (holdsList = true → d.listLock = some p) ∧ Locks d p locks
  | .destroying todo => ∀ n ∈ todo, Retired d n

structure ProcInv (d : Dir Name Pid opts) (p : Pid) (proc : Proc Name opts) : Prop where
  known : ∀ t ∈ proc.tables, Known d t
  pc : PcInv blockError d p proc.tables proc.pc

section Rely

variable {blockError : BlockError opts} {q : Pid} {d d' : Dir Name Pid opts}
  {tables : List (Table Name opts)} {c : CompactRange}

lemma Rely.known (h : Rely q d d') {t : Table Name opts} (ht : Known d t) : Known d' t :=
  ⟨h.listed _ ht.1, h.given _ _ ht.2⟩

lemma Rely.fresh (h : Rely q d d') (hlock : d.listLock = some q) {t : Table Name opts} (ht : Fresh d t) :
    Fresh d' t :=
  ⟨by rw [(h.locked hlock).2]; exact ht.1, h.given _ _ ht.2.1, h.pending hlock t ht⟩

lemma Rely.locks (h : Rely q d d') {locks : List Name} (hl : Locks d q locks) : Locks d' q locks :=
  ⟨hl.1, fun n hn => h.tableLock n (hl.2 n hn)⟩

lemma Rely.contInv (h : Rely q d d') {k : Cont Name} (hk : ContInv d q k) : ContInv d' q k :=
  ⟨fun hlist => h.listLock (hk.1 hlist), fun locks hlocks =>
    ⟨h.locks (hk.2 locks hlocks).1, fun n hn => h.retired n ((hk.2 locks hlocks).2 n hn)⟩⟩

lemma Rely.reuseInv (h : Rely q d d') {reuseOpen : Bool} (hr : ReuseInv d tables reuseOpen) :
    ReuseInv d' tables reuseOpen :=
  fun hreuse n hn => h.retired n (hr hreuse n hn)

lemma Rely.rangeInv (h : Rely q d d') (hc : RangeInv d q tables c) : RangeInv d' q tables c :=
  ⟨hc.bounds, fun n hn => h.tableLock n (hc.locked n hn),
    h.range _ _ (range_ne_nil hc.bounds) hc.locked hc.together⟩

lemma Rely.placeInv (h : Rely q d d') {names : List Name} {offset : Nat}
    (hp : PlaceInv d q tables c names offset) : PlaceInv d' q tables c names offset := by
  have hlist := (h.locked hp.listLock).1
  refine ⟨h.listLock hp.listLock, h.rangeInv hp.range, hp.names_eq.trans hlist.symm, ?_⟩
  obtain ⟨before, after, hloc, hlen⟩ := hp.located
  exact ⟨before, after, ⟨hlist.trans hloc.list, hloc.front⟩, hlen⟩

lemma Rely.newTables (h : Rely q d d') (hlock : d.listLock = some q) {newTables : List (Table Name opts)}
    (hn : NewTables d newTables) : NewTables d' newTables := by
  refine ⟨hn.1, fun t ht => ?_⟩
  obtain ⟨hfresh, horigin⟩ := hn.2 t ht
  exact ⟨h.fresh hlock hfresh, (h.origin _ ⟨_, hfresh.2.1⟩).trans horigin⟩

lemma Rely.newName (h : Rely q d d') (hlock : d.listLock = some q) (hknown : ∀ t ∈ tables, Known d t)
    {newTable : Option Name} (hn : NewName blockError d tables c newTable) :
    NewName blockError d' tables c newTable := by
  cases newTable with
  | none => exact hn
  | some n =>
    obtain ⟨table, hresult, hfresh, horigin⟩ := hn
    refine ⟨table, hresult, h.fresh hlock hfresh, ?_⟩
    rw [h.origin _ ⟨_, hfresh.2.1⟩, horigin]
    refine List.flatMap_congr fun m hm => ?_
    obtain ⟨t, ht, rfl⟩ := List.mem_map.mp ((List.take_subset _ _) ((List.drop_subset _ _) hm))
    exact (h.origin _ ⟨_, (hknown t ht).2⟩).symm

lemma ProcInv.rely {proc : Proc Name opts} (hproc : ProcInv blockError d q proc) (h : Rely q d d') :
    ProcInv blockError d' q proc := by
  obtain ⟨tables, pc⟩ := proc
  obtain ⟨hknown, hpc⟩ := hproc
  refine ⟨fun t ht => h.known (hknown t ht), ?_⟩
  simp only at hknown hpc ⊢
  cases pc with
  | closed => trivial
  | idle => trivial
  | reloading reuseOpen k => exact ⟨h.contInv hpc.1, h.reuseInv hpc.2⟩
  | opening reuseOpen k todo opened =>
    obtain ⟨hk, hreuse, hopened, htodo, hstale, hlist⟩ := hpc
    refine ⟨h.contInv hk, h.reuseInv hreuse, fun t ht => h.known (hopened t ht),
      fun n hn => h.listed n (htodo n hn), fun n hn hno hnt => h.retired n (hstale n hn hno hnt), fun hh => ?_⟩
    rw [(h.locked (hk.1 hh)).1, hlist hh]
  | closing k stale opened =>
    obtain ⟨hk, hstale, hopened, hlist⟩ := hpc
    refine ⟨h.contInv hk, fun n hn => h.retired n (hstale n hn), fun t ht => h.known (hopened t ht),
      fun hh => ?_⟩
    rw [(h.locked (hk.1 hh)).1, hlist hh]
  | checking b => exact ⟨h.listLock hpc.1, hpc.2⟩
  | addition nextUpdateIndex newTables =>
    obtain ⟨hlock, hlist, hnext, hnew⟩ := hpc
    exact ⟨h.listLock hlock, (h.locked hlock).1.trans hlist, hnext, h.newTables hlock hnew⟩
  | additionClose newTables =>
    refine ⟨h.listLock hpc.1, fun n hn => ?_⟩
    rw [(h.locked hpc.1).2]
    exact hpc.2 n hn
  | cleanReload => exact h.listLock hpc
  | cleaning => exact ⟨h.listLock hpc.1, (h.locked hpc.1).1.trans hpc.2⟩
  | locking c i =>
    obtain ⟨hlock, hlist, hc, hfirst, hlast, hlocks⟩ := hpc
    exact ⟨h.listLock hlock, (h.locked hlock).1.trans hlist, hc, hfirst, hlast,
      fun n hn => h.tableLock n (hlocks n hn)⟩
  | merging c => exact h.rangeInv hpc
  | relocking c result => exact ⟨h.rangeInv hpc.1, hpc.2⟩
  | relocating c result => exact ⟨h.listLock hpc.1, h.rangeInv hpc.2.1, hpc.2.2⟩
  | placing c result names offset => exact ⟨h.placeInv hpc.1, hpc.2⟩
  | replacing c names offset newTable =>
    exact ⟨h.placeInv hpc.1, h.newName hpc.1.listLock hknown hpc.2⟩
  | unlinking todo locks => exact ⟨fun n hn => h.retired n (hpc.1 n hn), h.locks hpc.2⟩
  | unlocking holdsList locks => exact ⟨fun hh => h.listLock (hpc.1 hh), h.locks hpc.2⟩
  | destroying todo => exact fun n hn => h.retired n (hpc n hn)

end Rely

section Range

variable {c : CompactRange} {α : Type} {d : Dir Name Pid opts} {p : Pid} {tables : List (Table Name opts)}

lemma CompactRange.split (c : CompactRange) (hc : c.first ≤ c.last) (l : List α) :
    l = l.take c.first ++ c.range l ++ l.drop (c.last + 1) := by
  have htake : l.take c.first = (l.take (c.last + 1)).take c.first := by
    rw [List.take_take, min_eq_left (by omega)]
  rw [htake, CompactRange.range, List.take_append_drop, List.take_append_drop]

lemma CompactRange.length_range {l : List α} (hc : c.first ≤ c.last) (hl : c.last < l.length) :
    (c.range l).length = c.last - c.first + 1 := by
  simp only [range, List.length_drop, List.length_take]
  omega

lemma CompactRange.mem_range_pred {c : CompactRange} {i : Nat} {l : List α} {n m : α} (hi : 0 < i)
    (hlast : i ≤ c.last + 1) (hn : l[i - 1]? = some n)
    (hm : m ∈ CompactRange.range { c with first := i - 1 } l) :
    m = n ∨ m ∈ CompactRange.range { c with first := i } l := by
  obtain ⟨hlt, hget⟩ := List.getElem?_eq_some_iff.mp hn
  have hlen : i - 1 < (l.take (c.last + 1)).length := by
    rw [List.length_take]
    omega
  simp only [range] at hm ⊢
  rw [List.drop_eq_getElem_cons hlen, List.getElem_take, hget, Nat.sub_add_cancel hi] at hm
  exact List.mem_cons.mp hm

lemma located_of_uptodate (hlist : d.tablesList = tableNames tables) (hc : c.InBounds tables) :
    Located d tables c ((tableNames tables).take c.first) ((tableNames tables).drop (c.last + 1)) :=
  ⟨hlist.trans (c.split hc.first_le _), fun h => by simp [h]⟩

lemma replacedNames_eq {before after : List Name} {newTable : Option Name}
    (hc : c.InBounds tables) :
    replacedNames c (before ++ c.range (tableNames tables) ++ after) before.length newTable =
      before ++ newTable.toList ++ after := by
  have hlen := CompactRange.length_range (l := tableNames tables) hc.first_le
    (by simpa [tableNames] using hc.last_lt)
  rw [replacedNames, List.append_assoc before, List.take_left, ← List.append_assoc before,
    show before.length + (c.last - c.first) + 1 = (before ++ c.range (tableNames tables)).length by
      rw [List.length_append, hlen]
      omega, List.drop_left]

lemma PlaceInv.eq {names : List Name} {offset : Nat} (h : PlaceInv d p tables c names offset)
    (newTable : Option Name) :
    ∃ before after, Located d tables c before after ∧
      replacedNames c names offset newTable = before ++ newTable.toList ++ after := by
  obtain ⟨before, after, hloc, rfl⟩ := h.located
  refine ⟨before, after, hloc, ?_⟩
  rw [h.names_eq, hloc.list, replacedNames_eq h.range.bounds]

lemma relocate_eq_some [DecidableEq Name] {names range : List Name} {offset : Nat}
    (h : relocate names range = some offset) :
    ∃ before after, names = before ++ range ++ after ∧ before.length = offset := by
  cases range with
  | nil => simp [relocate] at h
  | cons n range =>
    simp only [relocate] at h
    split_ifs at h with hfound
    cases h
    refine ⟨names.take (names.idxOf n), (names.drop (names.idxOf n)).drop (n :: range).length, ?_, ?_⟩
    · rw [List.append_assoc, List.prefix_iff_eq_append.mp hfound.2, List.take_append_drop]
    · rw [List.length_take, min_eq_left (List.idxOf_le_length)]

end Range

section Points

variable {blockError : BlockError opts} {p : Pid} {d : Dir Name Pid opts}
  {tables : List (Table Name opts)} {c : CompactRange}

lemma ContInv.fail {k : Cont Name} (hk : ContInv d p k) : PcInv blockError d p tables k.fail := by
  cases k with
  | newStack => trivial
  | reload => trivial
  | initAddition => exact ⟨hk.1 trivial, by simp⟩
  | clean => exact ⟨hk.1 trivial, by simp⟩
  | compacted locks => exact ⟨by simp, (hk.2 locks rfl).1⟩

lemma ContInv.ok {k : Cont Name} (hk : ContInv d p k) (hlist : k.HoldsList → d.tablesList = tableNames tables) :
    PcInv blockError d p tables (k.ok tables) := by
  cases k with
  | newStack => trivial
  | reload => trivial
  | initAddition => exact ⟨hk.1 trivial, hlist trivial, rfl, List.nodup_nil, by simp⟩
  | clean => exact ⟨hk.1 trivial, hlist trivial⟩
  | compacted locks => exact ⟨(hk.2 locks rfl).2, (hk.2 locks rfl).1⟩

lemma RangeInv.locks (h : RangeInv d p tables c) (hd : DirInv d) :
    Locks d p (c.range (tableNames tables)) := by
  obtain ⟨before, after, heq, -⟩ := h.together
  refine ⟨?_, h.locked⟩
  have hnodup := hd.nodup
  rw [heq] at hnodup
  exact ((List.nodup_append.mp (List.nodup_append.mp hnodup).1)).2.1

lemma Begins.inBounds {b : Begin} (h : Begins tables b) (hb : b = .compact c) : c.InBounds tables := by
  cases h with
  | addition reload => cases hb
  | clean => cases hb
  | compactAll expiry hne hexpiry =>
    cases hb
    have hpos := List.length_pos_iff.mpr hne
    exact ⟨Nat.zero_le _, by simp only; omega, by simp only; omega⟩
  | autoCompact sizes factor seg hlen hseg hpos =>
    cases hb
    obtain ⟨htwo, hstop⟩ := suggestCompactionSegment_bounds (hseg ▸ hpos)
    rw [← hseg] at htwo hstop
    exact ⟨by simp only; omega, by simp only; omega, .inl (by simp only; omega)⟩

lemma CompactRange.InBounds.reuseInv (hc : c.InBounds tables)
    (hretired : ∀ n ∈ c.range (tableNames tables), Retired d n) :
    ReuseInv d tables (decide (c.first < c.last)) := by
  intro hreuse n hn
  have hone : tables.length = 1 := hc.two.resolve_left (by simpa using hreuse)
  have hlt := hc.last_lt
  have hle := hc.first_le
  obtain ⟨t, rfl⟩ := List.length_eq_one_iff.mp hone
  refine hretired n ?_
  have hfirst : c.first = 0 := by omega
  have hlast : c.last = 0 := by omega
  simpa [CompactRange.range, tableNames, hfirst, hlast] using hn

lemma opening_next {reuseOpen : Bool} {k : Cont Name} {n : Name} {table : RefTable opts} {todo : List Name}
    {opened : List (Table Name opts)}
    (hpc : PcInv blockError d p tables (.opening reuseOpen k (n :: todo) opened))
    (htable : Known d (n, table)) :
    PcInv blockError d p tables (.opening reuseOpen k todo (opened ++ [(n, table)])) := by
  obtain ⟨hk, hreuse, hopened, htodo, hstale, hlist⟩ := hpc
  refine ⟨hk, hreuse, fun t ht => ?_, fun m hm => htodo m (by simp [hm]), fun m hm hmo hmt => ?_,
    fun hh => ?_⟩
  · rcases List.mem_append.mp ht with ht | ht
    · exact hopened t ht
    · obtain rfl : t = (n, table) := by simpa using ht
      exact htable
  · simp only [tableNames, List.map_append, List.map_cons, List.map_nil, List.mem_append,
      List.mem_singleton, not_or] at hmo
    exact hstale m hm hmo.1 (by simp [hmo.2, hmt])
  · simpa [tableNames] using hlist hh

structure Inv (blockError : BlockError opts) (s : System Name Pid opts) : Prop where
  dir : DirInv s.dir
  procs : ∀ q, ProcInv blockError s.dir q (s.procs q)

lemma Inv.init : Inv blockError (System.init : System Name Pid opts) :=
  ⟨DirInv.init, fun _ => ⟨by simp [System.init], trivial⟩⟩

end Points

section Step

variable [DecidableEq Name] {blockError : BlockError opts}
  {writes : List (RefTable opts) → RefTable opts → Prop} {p : Pid} {d d' : Dir Name Pid opts}
  {proc proc' : Proc Name opts} {tables : List (Table Name opts)} {c : CompactRange}

theorem ProcStep.effect (h : ProcStep blockError writes p d proc d' proc') (hd : DirInv d)
    (hproc : ProcInv blockError d p proc) : Effect blockError p d d' := by
  obtain ⟨hknown, hpc⟩ := hproc
  cases h with
  | closeTable tables k n stale opened => exact .unlinkRetired n (hpc.2.1 n (by simp))
  | lockList tables b _ hfree => exact .lockList hfree
  | additionAdd tables nextUpdateIndex newTables n wr table _ _ _ _ hn => exact .create n table [n] hn
  | additionCommit tables nextUpdateIndex newTables _ =>
    obtain ⟨hlock, hlist, -, hnew⟩ := hpc
    rw [← hlist]
    exact .commit tables newTables hlock hlist hknown hnew
  | closeNewTable tables n newTables =>
    exact .unlinkLocked n hpc.1 (hd.listed_of_mem (hpc.2 n (by simp)))
  | additionClosed tables => exact .unlockList hpc.1
  | cleanTable tables n table hn _ _ =>
    refine .unlinkLocked n hpc.1 ?_
    rw [hpc.2]
    exact hn
  | lockTable tables c i n _ _ hfree => exact .lockTable n hfree
  | locked tables c => exact .unlockList hpc.1
  | relock tables c result hfree => exact .lockList hfree
  | placeTable tables c table names offset n hn => exact .create n table _ hn
  | replaceList tables c names offset newTable =>
    obtain ⟨hplace, hnew⟩ := hpc
    obtain ⟨before, after, hloc, heq⟩ := hplace.eq newTable
    rw [heq]
    exact .replace tables c before after newTable hplace.listLock hplace.range.bounds hknown hloc
      hplace.range.locked hnew
  | replaceFail tables c names offset n =>
    obtain ⟨table, hfresh⟩ := hpc.2.fresh (n := n) (by simp)
    exact .unlinkLocked n hpc.1.listLock (hd.listed_of_mem hfresh.1)
  | unlinkOld tables n todo locks => exact .unlinkRetired n (hpc.1 n (by simp))
  | unlockList tables locks => exact .unlockList (hpc.1 rfl)
  | unlockTable tables n locks => exact .unlockTable n (hpc.2.2 n (by simp))
  | destroyTable tables n todo => exact .unlinkRetired n (hpc n (by simp))
  | _ => exact .same

theorem ProcStep.procInv (h : ProcStep blockError writes p d proc d' proc') (hd : DirInv d)
    (hproc : ProcInv blockError d p proc) : ProcInv blockError d' p proc' := by
  obtain ⟨hknown, hpc⟩ := id hproc
  cases h with
  | newStack => exact ⟨hknown, ⟨by simp [Cont.HoldsList], by simp⟩, by simp [ReuseInv]⟩
  | reload tables _ => exact ⟨hknown, ⟨by simp [Cont.HoldsList], by simp⟩, by simp [ReuseInv]⟩
  | readList tables reuseOpen k =>
    obtain ⟨hk, hreuse⟩ := hpc
    refine ⟨hknown, hk, hreuse, by simp, hd.listed, fun n hn _ hlist => ⟨?_, hlist⟩, fun _ => rfl⟩
    obtain ⟨t, ht, rfl⟩ := List.mem_map.mp hn
    exact (hknown t ht).1
  | readListFail tables reuseOpen k => exact ⟨hknown, hpc.1.fail⟩
  | reuseTable tables k n table todo opened hlookup =>
    obtain ⟨hk, hreuse, hopened, htodo, hstale, hlist⟩ := hpc
    have htable : Known d (n, table) := by
      obtain ⟨before, after, rfl, -⟩ := List.lookup_eq_some_iff.mp hlookup
      exact hknown _ (by simp)
    exact ⟨hknown, opening_next ⟨hk, hreuse, hopened, htodo, hstale, hlist⟩ htable⟩
  | openTable tables reuseOpen k n table todo opened _ hfile =>
    have htable : Known d (n, table) := ⟨hpc.2.2.2.1 n (by simp), hd.files n table hfile⟩
    exact ⟨hknown, opening_next hpc htable⟩
  | openFail tables reuseOpen k todo opened => exact ⟨hknown, hpc.1.fail⟩
  | openRetry tables reuseOpen k n todo opened _ _ _ => exact ⟨hknown, hpc.1, hpc.2.1⟩
  | openGiveUp tables reuseOpen k n todo opened _ _ hchanged =>
    obtain ⟨hk, hreuse, hopened, htodo, hstale, hlist⟩ := hpc
    refine ⟨hknown, ?_⟩
    cases k with
    | newStack => trivial
    | _ => exact hk.ok fun hh => absurd (hlist hh).symm hchanged
  | opened tables reuseOpen k opened =>
    obtain ⟨hk, hreuse, hopened, htodo, hstale, hlist⟩ := hpc
    refine ⟨hknown, hk, fun n hn => ?_, hopened, fun hh => by simpa using hlist hh⟩
    obtain ⟨hmem, hunused⟩ := List.mem_filter.mp hn
    simp only [decide_eq_true_eq, not_and] at hunused
    cases reuseOpen with
    | false => exact hreuse rfl n hmem
    | true => exact hstale n hmem (hunused rfl) (by simp)
  | closeTable tables k n stale opened =>
    have hrely : Rely p d (d.unlink n) := rely_unlink (.inl (hpc.2.1 n (by simp)).1)
    obtain ⟨hknown', hk, hstale, hopened⟩ := hproc.rely hrely
    exact ⟨hknown', hk, fun m hm => hstale m (by simp [hm]), hopened⟩
  | reloaded tables k opened =>
    obtain ⟨hk, -, hopened, hlist⟩ := hpc
    exact ⟨hopened, hk.ok fun hh => (hlist hh).symm⟩
  | lockList tables b hb _ => exact ⟨hknown, rfl, fun c hc => hb.inBounds hc⟩
  | outdated tables b _ => exact ⟨hknown, hpc.1, by simp⟩
  | outdatedReload tables _ =>
    exact ⟨hknown, ⟨fun _ => hpc.1, by simp⟩, by simp [ReuseInv]⟩
  | initAddition tables reload hlist => exact ⟨hknown, hpc.1, hlist, rfl, List.nodup_nil, by simp⟩
  | additionAdd tables nextUpdateIndex newTables n wr table _ _ _ _ hn =>
    have hrely : Rely p d (d.create n table [n]) := rely_create hn
    obtain ⟨hknown', hlock, hlist, hnext, hnew⟩ := hproc.rely hrely
    have hunlisted : n ∉ d.listed := fun h => by
      obtain ⟨t, ht⟩ := hd.given n h
      exact absurd (hn.symm.trans ht) (by simp)
    have hother : n ∉ tableNames newTables := fun h => by
      obtain ⟨t, ht⟩ := hpc.2.2.2.fresh h
      exact absurd (hn.symm.trans ht.2.1) (by simp)
    refine ⟨hknown', hlock, hlist, hnext, ?_, fun t ht => ?_⟩
    · simp only [tableNames, List.map_append, List.map_cons, List.map_nil]
      exact hnew.1.append (List.nodup_singleton _) (by simpa using hother)
    · rcases List.mem_append.mp ht with ht | ht
      · exact hnew.2 t ht
      · obtain rfl : t = (n, table) := by simpa using ht
        exact ⟨⟨hunlisted, by simp [Dir.create], by simp [Dir.create]⟩, by simp [Dir.create]⟩
  | additionCommit tables nextUpdateIndex newTables _ =>
    refine ⟨fun t ht => ⟨List.mem_append_left _ (hknown t ht).1, (hknown t ht).2⟩, ?_, by simp [ReuseInv]⟩
    exact ⟨by simp [Cont.HoldsList], by simp⟩
  | additionAbort tables nextUpdateIndex newTables =>
    obtain ⟨hlock, -, -, hnew⟩ := hpc
    refine ⟨hknown, hlock, fun n hn => ?_⟩
    obtain ⟨table, hfresh⟩ := hnew.fresh hn
    exact hfresh.1
  | closeNewTable tables n newTables => exact ⟨hknown, hpc.1, fun m hm => hpc.2 m (by simp [hm])⟩
  | additionClosed tables => exact ⟨hknown, trivial⟩
  | cleanAddition tables _ => exact ⟨hknown, hpc.1⟩
  | cleanReload tables _ => exact ⟨hknown, ⟨fun _ => hpc, by simp⟩, by simp [ReuseInv]⟩
  | cleanLocked tables hlist => exact ⟨hknown, hpc, hlist⟩
  | cleanTable tables n table _ _ _ => exact ⟨hknown, hpc⟩
  | cleaned tables => exact ⟨hknown, hpc.1, by simp⟩
  | compactBegin tables c hlist =>
    have hc := hpc.2 c rfl
    refine ⟨hknown, hpc.1, hlist, hc, by have := hc.first_le; omega, le_rfl, fun n hn => ?_⟩
    simp [CompactRange.range] at hn
  | lockTable tables c i n hi hn hfree =>
    obtain ⟨hlock, hlist, hc, hfirst, hlast, hlocks⟩ := hpc
    refine ⟨hknown, hlock, hlist, hc, by omega, by omega, fun m hm => ?_⟩
    by_cases hmn : m = n
    · simp [Dir.lockTable, hmn]
    · have hm := (CompactRange.mem_range_pred (by omega) hlast hn hm).resolve_left hmn
      simpa [Dir.lockTable, hmn] using hlocks m hm
  | lockTaken tables c i n hi hn _ _ htwo =>
    obtain ⟨hlock, hlist, hc, hfirst, hlast, hlocks⟩ := hpc
    have hbounds : CompactRange.InBounds { c with first := i } tables :=
      ⟨by simp only; omega, hc.last_lt, .inl (by simp only; omega)⟩
    exact ⟨hknown, hlock, hlist, hbounds, le_rfl, hlast, hlocks⟩
  | lockFail tables c i hi =>
    obtain ⟨hlock, hlist, -, -, -, hlocks⟩ := hpc
    refine ⟨hknown, fun _ => hlock, ?_, hlocks⟩
    have hnodup := hd.nodup
    rw [hlist] at hnodup
    exact hnodup.sublist ((List.drop_sublist _ _).trans (List.take_sublist _ _))
  | locked tables c =>
    obtain ⟨hlock, hlist, hc, hfirst, hlast, hlocks⟩ := hpc
    have hloc := located_of_uptodate hlist hc
    exact ⟨hknown, hc, hlocks, _, _, hloc.list, hloc.front⟩
  | merged tables c hfirst hlast wr hwr => exact ⟨hknown, hpc, hfirst, hlast, wr, hwr, rfl⟩
  | mergeFail tables c => exact ⟨hknown, by simp, hpc.locks hd⟩
  | relock tables c result _ => exact ⟨hknown, rfl, ⟨hpc.1.bounds, hpc.1.locked, hpc.1.together⟩, hpc.2⟩
  | relockFail tables c result => exact ⟨hknown, by simp, hpc.1.locks hd⟩
  | relocateSame tables c result hlist =>
    obtain ⟨hlock, hrange, hresult⟩ := hpc
    refine ⟨hknown, ⟨hlock, hrange, hlist.symm, _, _, located_of_uptodate hlist hrange.bounds, ?_⟩, hresult⟩
    have hle := hrange.bounds.first_le
    have hlt : c.last < tables.length := hrange.bounds.last_lt
    simp only [tableNames, List.length_take, List.length_map]
    omega
  | relocateMoved tables c result offset _ hoffset =>
    obtain ⟨hlock, hrange, hresult⟩ := hpc
    obtain ⟨before, after, heq, hlen⟩ := relocate_eq_some hoffset
    refine ⟨hknown, ⟨hlock, hrange, rfl, before, after, ⟨heq, fun h => ?_⟩, hlen⟩, hresult⟩
    -- the locked range is still at the front, and it has one place in the list
    obtain ⟨before', after', heq', hfront⟩ := hrange.together
    have hnodup := hd.nodup
    rw [heq] at hnodup
    have hplace := eq_of_append_eq (range_ne_nil hrange.bounds) hnodup (heq.symm.trans heq')
    rw [hplace.1, hfront h]
  | relocateFail tables c result => exact ⟨hknown, fun _ => hpc.1, hpc.2.1.locks hd⟩
  | placeTable tables c table names offset n hn =>
    have hrely : Rely p d (d.create n table ((c.range (tableNames tables)).flatMap d.origin)) := rely_create hn
    obtain ⟨hknown', hplace, hresult⟩ := hproc.rely hrely
    have hunlisted : n ∉ d.listed := fun h => by
      obtain ⟨t, ht⟩ := hd.given n h
      exact absurd (hn.symm.trans ht) (by simp)
    refine ⟨hknown', hplace, table, hresult, ⟨hunlisted, by simp [Dir.create], by simp [Dir.create]⟩, ?_⟩
    refine (Function.update_self _ _ _).trans (List.flatMap_congr fun m hm => ?_)
    obtain ⟨t, ht, rfl⟩ := List.mem_map.mp ((List.take_subset _ _) ((List.drop_subset _ _) hm))
    exact (hrely.origin _ ⟨_, (hknown t ht).2⟩).symm
  | placeEmpty tables c names offset => exact ⟨hknown, hpc⟩
  | placeFail tables c result names offset =>
    exact ⟨hknown, fun _ => hpc.1.listLock, hpc.1.range.locks hd⟩
  | replaceList tables c names offset newTable =>
    obtain ⟨hplace, hnew⟩ := hpc
    obtain ⟨before, after, hloc, heq⟩ := hplace.eq newTable
    have hretired : ∀ n ∈ c.range (tableNames tables),
        Retired (d.replaceList (replacedNames c names offset newTable) newTable.toList) n := by
      intro n hn
      have hmem : n ∈ d.tablesList := by
        rw [hloc.list]
        simp [hn]
      have hlisted := hd.listed n hmem
      refine ⟨List.mem_append_left _ hlisted, fun h => ?_⟩
      rw [heq] at h
      have hnodup := hd.nodup
      rw [hloc.list, List.nodup_append, List.nodup_append] at hnodup
      rcases List.mem_append.mp h with h | h
      · rcases List.mem_append.mp h with h | h
        · exact hnodup.1.2.2 n h n hn rfl
        · obtain ⟨table, hfresh⟩ := hnew.fresh h
          exact hfresh.1 hlisted
      · exact hnodup.2.2 n (by simp [hn]) n h rfl
    refine ⟨fun t ht => ⟨List.mem_append_left _ (hknown t ht).1, (hknown t ht).2⟩, ⟨by simp [Cont.HoldsList], ?_⟩,
      hplace.range.bounds.reuseInv hretired⟩
    rintro locks ⟨⟩
    exact ⟨hplace.range.locks hd, hretired⟩
  | replaceFail tables c names offset n => exact ⟨hknown, fun _ => hpc.1.listLock, hpc.1.range.locks hd⟩
  | replaceFailEmpty tables c names offset =>
    exact ⟨hknown, fun _ => hpc.1.listLock, hpc.1.range.locks hd⟩
  | unlinkOld tables n todo locks => exact ⟨hknown, fun m hm => hpc.1 m (by simp [hm]), hpc.2⟩
  | unlinkedOld tables locks => exact ⟨hknown, by simp, hpc.2⟩
  | unlockList tables locks => exact ⟨hknown, by simp, hpc.2⟩
  | unlockTable tables n locks =>
    obtain ⟨-, hnodup, hlocks⟩ := hpc
    obtain ⟨hn, hnodup⟩ := List.nodup_cons.mp hnodup
    refine ⟨hknown, by simp, hnodup, fun m hm => ?_⟩
    have hne : m ≠ n := by
      rintro rfl
      exact hn hm
    simpa [Dir.unlockTable, hne] using hlocks m (by simp [hm])
  | unlocked tables => exact ⟨hknown, trivial⟩
  | destroy tables =>
    refine ⟨hknown, fun n hn => ?_⟩
    obtain ⟨hmem, hunlisted⟩ := List.mem_filter.mp hn
    obtain ⟨t, ht, rfl⟩ := List.mem_map.mp hmem
    exact ⟨(hknown t ht).1, by simpa using hunlisted⟩
  | destroyTable tables n todo => exact ⟨hknown, fun m hm => hpc m (by simp [hm])⟩
  | destroyed tables => exact ⟨by simp, trivial⟩
  | destroyUnread tables => exact ⟨by simp, trivial⟩

variable [DecidableEq Pid]

lemma Step.inv {s s' : System Name Pid opts} (h : Step blockError writes s s') (hs : Inv blockError s) :
    Inv blockError s' := by
  obtain ⟨p, s, d', proc', hstep⟩ := h
  have heffect := hstep.effect hs.dir (hs.procs p)
  refine ⟨heffect.dirInv hs.dir, fun q => ?_⟩
  by_cases hq : q = p
  · subst hq
    simpa using hstep.procInv hs.dir (hs.procs q)
  · simpa [hq] using (hs.procs q).rely (heffect.rely hs.dir hq)

theorem Reachable.inv {s : System Name Pid opts} (h : Reachable blockError writes s) : Inv blockError s := by
  induction h with
  | refl => exact Inv.init
  | tail _ hstep ih => exact hstep.inv ih

end Step

end GitCore.Stack
