import GitCore.Reftable.Limits
import GitCore.Stack.Safety

/-!
# The order of the tables

The update-index ranges of the tables in a stack increase, if each addition orders its own tables
and no table has the last update index.
-/

namespace GitCore.Stack

open Reftable

variable {Name Pid : Type} {opts : WriteOptions}

structure Ordered (tables : List (RefTable opts)) : Prop where
  increasing : tables.Pairwise fun a b => a.maxUpdateIndex < b.minUpdateIndex
  limits : ∀ t ∈ tables, t.minUpdateIndex ≤ t.maxUpdateIndex ∧ t.maxUpdateIndex.toNat + 1 < 2 ^ 64
  within : ∀ t ∈ tables, t.Within

/-- A table that `reftable_addition_add` may take after the tables in `added`. The code checks only
that its minimum is not below the next update index at the start of the addition. -/
def WellLimited (added : List (RefTable opts)) (table : RefTable opts) : Prop :=
  table.minUpdateIndex ≤ table.maxUpdateIndex ∧ table.maxUpdateIndex.toNat + 1 < 2 ^ 64 ∧
    ∀ t ∈ added, t.maxUpdateIndex < table.minUpdateIndex

namespace Ordered

variable {tables older range newer : List (RefTable opts)} {table : RefTable opts}

lemma nil : Ordered ([] : List (RefTable opts)) :=
  ⟨List.Pairwise.nil, by simp, by simp⟩

lemma sublist (h : Ordered tables) (hsub : older.Sublist tables) : Ordered older :=
  ⟨h.increasing.sublist hsub, fun t ht => h.limits t (hsub.subset ht), fun t ht => h.within t (hsub.subset ht)⟩

lemma concat (h : Ordered tables) (hlimits : WellLimited tables table) (hwithin : table.Within) :
    Ordered (tables ++ [table]) where
  increasing := List.pairwise_append.mpr ⟨h.increasing, List.pairwise_singleton _ _, fun t ht u hu => by
    obtain rfl : u = table := by simpa using hu
    exact hlimits.2.2 t ht⟩
  limits t ht := by
    rcases List.mem_append.mp ht with ht | ht
    · exact h.limits t ht
    · obtain rfl : t = table := by simpa using ht
      exact ⟨hlimits.1, hlimits.2.1⟩
  within t ht := by
    rcases List.mem_append.mp ht with ht | ht
    · exact h.within t ht
    · obtain rfl : t = table := by simpa using ht
      exact hwithin

lemma replace {first last : RefTable opts} (h : Ordered (older ++ range ++ newer)) (hfirst : first ∈ range)
    (hlast : last ∈ range) (hmin : table.minUpdateIndex = first.minUpdateIndex)
    (hmax : table.maxUpdateIndex = last.maxUpdateIndex) (hle : table.minUpdateIndex ≤ table.maxUpdateIndex)
    (hwithin : table.Within) : Ordered (older ++ [table] ++ newer) := by
  obtain ⟨hlow, hnewer, hcross⟩ := List.pairwise_append.mp h.increasing
  obtain ⟨holder, -, hcross'⟩ := List.pairwise_append.mp hlow
  have holds : ∀ t ∈ older ++ [table] ++ newer, t ∈ older ∨ t = table ∨ t ∈ newer := by
    intro t ht
    simpa using ht
  refine ⟨?_, fun t ht => ?_, fun t ht => ?_⟩
  · refine List.pairwise_append.mpr ⟨List.pairwise_append.mpr ⟨holder, List.pairwise_singleton _ _, ?_⟩, hnewer, ?_⟩
    · intro t ht u hu
      obtain rfl : u = table := by simpa using hu
      rw [hmin]
      exact hcross' t ht first hfirst
    · intro t ht u hu
      rcases List.mem_append.mp ht with ht | ht
      · exact hcross t (by simp [ht]) u hu
      · obtain rfl : t = table := by simpa using ht
        rw [hmax]
        exact hcross last (by simp [hlast]) u hu
  · rcases holds t ht with ht | rfl | ht
    · exact h.limits t (by simp [ht])
    · refine ⟨hle, ?_⟩
      rw [hmax]
      exact (h.limits last (by simp [hlast])).2
    · exact h.limits t (by simp [ht])
  · rcases holds t ht with ht | rfl | ht
    · exact h.within t (by simp [ht])
    · exact hwithin
    · exact h.within t (by simp [ht])

lemma le_of_le (h : Ordered tables) {i j : Nat} (hij : i ≤ j) (hi : i < tables.length)
    (hj : j < tables.length) :
    tables[i].minUpdateIndex ≤ tables[j].maxUpdateIndex := by
  rcases hij.eq_or_lt with rfl | hlt
  · exact (h.limits _ (List.getElem_mem _)).1
  · have hbetween := List.pairwise_iff_getElem.mp h.increasing i j hi hj hlt
    have hlow := (h.limits tables[i] (List.getElem_mem _)).1
    have hhigh := (h.limits tables[j] (List.getElem_mem _)).1
    exact UInt64.le_trans (UInt64.le_trans hlow (UInt64.le_of_lt hbetween)) hhigh

lemma lt_next {tables : List (Table Name opts)} (h : Ordered (tables.map Prod.snd)) {t : Table Name opts}
    (ht : t ∈ tables) : t.2.maxUpdateIndex < stackNextUpdateIndex tables := by
  obtain ⟨front, last, rfl⟩ := List.eq_nil_or_concat' tables |>.resolve_left (List.ne_nil_of_mem ht)
  have hlast := h.limits last.2 (by simp)
  have hnext : (stackNextUpdateIndex (front ++ [last])).toNat = last.2.maxUpdateIndex.toNat + 1 := by
    simp only [stackNextUpdateIndex, List.getLast?_concat, UInt64.toNat_add]
    exact Nat.mod_eq_of_lt hlast.2
  have hle : t.2.maxUpdateIndex.toNat ≤ last.2.maxUpdateIndex.toNat := by
    rcases List.mem_append.mp ht with ht | ht
    · rw [List.map_append] at h
      have hlt := (List.pairwise_append.mp h.increasing).2.2 t.2 (List.mem_map_of_mem ht) last.2 (by simp)
      have hlt := UInt64.lt_iff_toNat_lt.mp hlt
      have hle := UInt64.le_iff_toNat_le.mp hlast.1
      omega
    · obtain rfl : t = last := by simpa using ht
      exact le_rfl
  rw [UInt64.lt_iff_toNat_lt, hnext]
  omega

end Ordered

def PcOrder (d : Dir Name Pid opts) (tables : List (Table Name opts)) : Pc Name opts → Prop
  | .opening _ _ todo opened => Ordered ((tableNames opened ++ todo).filterMap d.given)
  | .closing _ _ opened => Ordered (opened.map Prod.snd)
  | .addition _ newTables => Ordered (tables.map Prod.snd ++ newTables.map Prod.snd)
  | _ => True

structure ProcOrder (d : Dir Name Pid opts) (proc : Proc Name opts) : Prop where
  tables : Ordered (proc.tables.map Prod.snd)
  pc : PcOrder d proc.tables proc.pc

section Points

variable {blockError : BlockError opts} {d : Dir Name Pid opts} {tables : List (Table Name opts)}

lemma Cont.order_ok {k : Cont Name} (h : Ordered (tables.map Prod.snd)) : PcOrder d tables (k.ok tables) := by
  cases k with
  | initAddition => simpa [Cont.ok, PcOrder] using h
  | _ => trivial

lemma Cont.order_giveUp {k : Cont Name} (h : Ordered (tables.map Prod.snd)) :
    PcOrder d tables (k.giveUp tables) := by
  cases k with
  | newStack => trivial
  | reload => trivial
  | initAddition => simpa [Cont.giveUp, Cont.ok, PcOrder] using h
  | clean => trivial
  | compacted locks => trivial

lemma Cont.order_fail {k : Cont Name} : PcOrder d tables k.fail := by
  cases k <;> trivial

lemma CompactResult.replace {c : CompactRange} {result : Option (RefTable opts)} {older newer : List (RefTable opts)}
    (h : CompactResult blockError tables c result) (ho : Ordered (tables.map Prod.snd))
    (hlist : Ordered (older ++ ((tables.map Prod.snd).drop c.first).take (c.last - c.first + 1) ++ newer)) :
    Ordered (older ++ result.toList ++ newer) := by
  obtain ⟨hfirst, hlast, wr, hwr, rfl⟩ := h
  obtain ⟨hwithin, hmin, hmax⟩ := stackWriteCompact_within (hfirst.trans_lt hlast) hwr
  unfold writtenTable
  split_ifs
  · refine hlist.sublist ((List.Sublist.append_left ?_ _).append_right _)
    simp
  · have hmem (i : Nat) (hi : i < (tables.map Prod.snd).length) (hlow : c.first ≤ i) (hhigh : i ≤ c.last) :
        (tables.map Prod.snd)[i] ∈ ((tables.map Prod.snd).drop c.first).take (c.last - c.first + 1) := by
      refine List.mem_of_getElem? (i := i - c.first) ?_
      rw [List.getElem?_take_of_lt (by omega), List.getElem?_drop, Nat.add_sub_cancel' hlow,
        List.getElem?_eq_getElem hi]
    refine hlist.replace (hmem c.first (by omega) le_rfl hfirst) (hmem c.last hlast hfirst le_rfl) hmin hmax ?_ hwithin
    show wr.minUpdateIndex ≤ wr.maxUpdateIndex
    rw [hmin, hmax]
    exact ho.le_of_le hfirst (hfirst.trans_lt hlast) hlast

end Points

section Step

variable [DecidableEq Name] {blockError : BlockError opts} {p q : Pid} {d d' : Dir Name Pid opts}
  {proc proc' : Proc Name opts} {tables : List (Table Name opts)}

lemma Effect.filterMap_given (h : Effect blockError p d d') (hd : DirInv d) {names : List Name}
    (hnames : ∀ n ∈ names, n ∈ d.listed) : names.filterMap d'.given = names.filterMap d.given := by
  refine List.filterMap_congr fun n hn => ?_
  obtain ⟨table, ht⟩ := hd.given n (hnames n hn)
  rw [ht, h.given ht]

lemma ProcOrder.effect (ho : ProcOrder d proc) (h : Effect blockError p d d') (hd : DirInv d)
    (hproc : ProcInv blockError d q proc) : ProcOrder d' proc := by
  refine ⟨ho.tables, ?_⟩
  have hpc := ho.pc
  have hinv := hproc.pc
  cases hcase : proc.pc with
  | opening reuseOpen k todo opened =>
    rw [hcase] at hpc hinv
    obtain ⟨-, -, hopened, htodo, -, -⟩ := hinv
    have hlisted : ∀ n ∈ tableNames opened ++ todo, n ∈ d.listed := by
      intro n hn
      rcases List.mem_append.mp hn with hn | hn
      · obtain ⟨t, ht, rfl⟩ := List.mem_map.mp hn
        exact (hopened t ht).1
      · exact htodo n hn
    simpa only [PcOrder, h.filterMap_given hd hlisted] using hpc
  | closing k stale opened => rwa [hcase] at hpc
  | addition nextUpdateIndex newTables => rwa [hcase] at hpc
  | _ => trivial

lemma ProcStep.order (h : ProcStep blockError WellLimited p d proc d' proc') (hd : DirInv d)
    (hproc : ProcInv blockError d p proc) (hlist : Ordered (d.tablesList.filterMap d.given))
    (ho : ProcOrder d proc) : Ordered (d'.tablesList.filterMap d'.given) ∧ ProcOrder d' proc' := by
  have heffect := h.effect hd hproc
  have hgiven := heffect.filterMap_given hd hd.listed
  obtain ⟨hknown, hpc⟩ := hproc
  obtain ⟨htables, hpco⟩ := ho
  cases h with
  | newStack => exact ⟨hlist, Ordered.nil, trivial⟩
  | readList tables reuseOpen k => exact ⟨hlist, htables, hlist⟩
  | readListFail tables reuseOpen k => exact ⟨hlist, htables, Cont.order_fail⟩
  | reuseTable tables k n table todo opened _ =>
    exact ⟨hlist, htables, by simpa [PcOrder, tableNames] using hpco⟩
  | openTable tables reuseOpen k n table todo opened _ _ =>
    exact ⟨hlist, htables, by simpa [PcOrder, tableNames] using hpco⟩
  | openFail tables reuseOpen k todo opened => exact ⟨hlist, htables, Cont.order_fail⟩
  | openGiveUp tables reuseOpen k n todo opened _ _ _ =>
    exact ⟨hlist, htables, Cont.order_giveUp htables⟩
  | opened tables reuseOpen k opened =>
    refine ⟨hlist, htables, ?_⟩
    have hopened := known_filterMap hpc.2.2.1
    simpa only [PcOrder, List.append_nil, hopened] using hpco
  | closeTable tables k n stale opened => exact ⟨hlist, htables, hpco⟩
  | reloaded tables k opened => exact ⟨hlist, hpco, Cont.order_ok hpco⟩
  | initAddition tables reload _ => exact ⟨hlist, htables, by simpa [PcOrder] using htables⟩
  | additionAdd tables nextUpdateIndex newTables n wr table hwritten hwr hlimits hnext hn =>
    refine ⟨?_, htables, ?_⟩
    · exact hgiven.symm ▸ hlist
    · have hwithin : table.Within := by
        unfold writtenTable at hwr
        split_ifs at hwr
        cases hwr
        exact hwritten.within
      simp only [PcOrder, List.map_append, List.map_cons, List.map_nil]
      rw [← List.append_assoc]
      refine Ordered.concat hpco ⟨hlimits.1, hlimits.2.1, fun t ht => ?_⟩ hwithin
      rcases List.mem_append.mp ht with ht | ht
      · obtain ⟨u, hu, rfl⟩ := List.mem_map.mp ht
        have hlt := htables.lt_next hu
        rw [hpc.2.2.1] at hnext
        exact UInt64.lt_of_lt_of_le hlt hnext
      · exact hlimits.2.2 t ht
  | additionCommit tables nextUpdateIndex newTables _ =>
    obtain ⟨-, -, -, hnew⟩ := hpc
    refine ⟨?_, htables, trivial⟩
    simp only [Dir.commit, Dir.replaceList, List.filterMap_append, hnew.filterMap, known_filterMap hknown]
    exact hpco
  | placeTable tables c table names offset n hn => exact ⟨hgiven.symm ▸ hlist, htables, trivial⟩
  | replaceList tables c names offset newTable =>
    refine ⟨?_, htables, trivial⟩
    obtain ⟨hplace, hnew⟩ := hpc
    obtain ⟨before, after, hloc, heq⟩ := hplace.eq newTable
    obtain ⟨result, hresult, hresult'⟩ := hnew.result
    rw [hloc.list, List.filterMap_append, List.filterMap_append,
      range_filterMap hknown hplace.range.bounds.first_le] at hlist
    simp only [Dir.replaceList, heq, List.filterMap_append, hresult']
    exact hresult.replace htables hlist
  | destroyed tables => exact ⟨hlist, Ordered.nil, trivial⟩
  | destroyUnread tables => exact ⟨hlist, Ordered.nil, trivial⟩
  | _ => exact ⟨hlist, htables, trivial⟩

end Step

section Run

def Dir.loaded (d : Dir Name Pid opts) : List (Table Name opts) :=
  d.tablesList.filterMap fun n => (d.files n).map (n, ·)

/-- The ranges of the tables increase, and the next update index is above all of them and above the
records in them. -/
structure WellOrdered (stack : List (Table Name opts)) : Prop where
  increasing : (stack.map Prod.snd).Pairwise fun a b => a.maxUpdateIndex < b.minUpdateIndex
  lt_next : ∀ t ∈ stack, t.2.minUpdateIndex < stackNextUpdateIndex stack ∧
    t.2.maxUpdateIndex < stackNextUpdateIndex stack
  refs_lt_next : ∀ t ∈ stack, ∀ ref ∈ t.2.refs.records, ref.updateIndex < stackNextUpdateIndex stack
  logs_lt_next : ∀ t ∈ stack, ∀ log ∈ t.2.logs.records, ¬ log.isDeletion →
    log.updateIndex < stackNextUpdateIndex stack

lemma Ordered.wellOrdered {stack : List (Table Name opts)} (h : Ordered (stack.map Prod.snd)) :
    WellOrdered stack where
  increasing := h.increasing
  lt_next t ht := by
    have hlt := h.lt_next ht
    exact ⟨UInt64.lt_of_le_of_lt (h.limits _ (List.mem_map_of_mem ht)).1 hlt, hlt⟩
  refs_lt_next t ht ref href :=
    UInt64.lt_of_le_of_lt ((h.within _ (List.mem_map_of_mem ht)).refs ref href).2 (h.lt_next ht)
  logs_lt_next t ht log hlog hdel :=
    UInt64.lt_of_le_of_lt ((h.within _ (List.mem_map_of_mem ht)).logs log hlog hdel) (h.lt_next ht)

lemma Dir.loaded_snd (d : Dir Name Pid opts) : d.loaded.map Prod.snd = d.tables := by
  rw [Dir.loaded, Dir.tables, List.map_filterMap]
  refine List.filterMap_congr fun n _ => ?_
  cases d.files n <;> rfl

variable [DecidableEq Name] [DecidableEq Pid] {blockError : BlockError opts} {s : System Name Pid opts}

lemma Reachable.order (h : Reachable blockError WellLimited s) :
    Ordered (s.dir.tablesList.filterMap s.dir.given) ∧ ∀ q, ProcOrder s.dir (s.procs q) := by
  induction h with
  | refl => exact ⟨Ordered.nil, fun _ => ⟨Ordered.nil, trivial⟩⟩
  | tail hreach hstep ih =>
    have hinv := Reachable.inv hreach
    obtain ⟨p, s, d', proc', hstep⟩ := hstep
    obtain ⟨hlist, hproc⟩ := hstep.order hinv.dir (hinv.procs p) ih.1 (ih.2 p)
    refine ⟨hlist, fun q => ?_⟩
    by_cases hq : q = p
    · subst hq
      simpa using hproc
    · have heffect := hstep.effect hinv.dir (hinv.procs p)
      simpa [hq] using (ih.2 q).effect heffect hinv.dir (hinv.procs q)

end Run

section Example

lemma exampleAddition (writes : List (RefTable exampleOptions) → RefTable exampleOptions → Prop) (i j : UInt64)
    (hi : writes [] (writerClose (exampleWriter i))) (hi' : 1 ≤ i)
    (hj : writes [writerClose (exampleWriter i)] (writerClose (exampleWriter j))) (hj' : 1 ≤ j) :
    ∃ s : System Nat Nat exampleOptions, Reachable (.never exampleOptions) writes s ∧
      s.dir.loaded = [(0, writerClose (exampleWriter i)), (1, writerClose (exampleWriter j))] := by
  have h : SoloRun (.never exampleOptions) writes 0 (.init : Dir Nat Nat exampleOptions) ⟨[], .closed⟩ := .start
  have h := h.step (.newStack _)
  have h := h.step (.readList _ _ _ _)
  have h := h.step (.opened _ _ _ _ _)
  have h := h.step (.reloaded _ _ _ _)
  have h := h.step (.lockList _ _ (.addition false) (.addition _) rfl)
  have h := h.step (.initAddition _ _ _ rfl)
  have h := h.step (.additionAdd _ _ _ _ 0 (exampleWriter i) _ (exampleWritten i) rfl hi hi' rfl)
  have h := h.step (.additionAdd _ _ _ _ 1 (exampleWriter j) _ (exampleWritten j) rfl hj hj' rfl)
  have h := h.step (.additionCommit _ _ _ _ (by simp))
  obtain ⟨s, hs, hd, -⟩ := h.reachable
  exact ⟨s, hs, by rw [hd]; rfl⟩

end Example

end GitCore.Stack
