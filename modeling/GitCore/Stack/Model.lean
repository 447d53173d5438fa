import GitCore.Reftable.Compact
import GitCore.Stack.Geometric

/-!
# Processes that share a reftable stack

The directory of a stack and the processes that open, reload, add to, compact, clean and destroy
the stack in it. A step is what a process does to the directory at once: it takes or releases a
lock, reads or replaces `tables.list`, opens, creates or unlinks a table.
-/

namespace GitCore.Stack

open Reftable

variable {Name Pid : Type} [DecidableEq Name] {opts : WriteOptions}

/-- The directory. A missing `tables.list` is an empty one. The last four fields are history: the
tables that ever had a name, the tables they were merged from, the names that were ever listed,
and the additions in the order of their commits. -/
structure Dir (Name Pid : Type) (opts : WriteOptions) where
  tablesList : List Name
  listLock : Option Pid
  tableLock : Name → Option Pid
  files : Name → Option (RefTable opts)
  given : Name → Option (RefTable opts)
  origin : Name → List Name
  listed : List Name
  committed : List (List Name)

namespace Dir

def init : Dir Name Pid opts :=
  ⟨[], none, fun _ => none, fun _ => none, fun _ => none, fun _ => [], [], []⟩

def lockList (d : Dir Name Pid opts) (p : Pid) : Dir Name Pid opts :=
  { d with listLock := some p }

def unlockList (d : Dir Name Pid opts) : Dir Name Pid opts :=
  { d with listLock := none }

def lockTable (d : Dir Name Pid opts) (p : Pid) (n : Name) : Dir Name Pid opts :=
  { d with tableLock := Function.update d.tableLock n (some p) }

def unlockTable (d : Dir Name Pid opts) (n : Name) : Dir Name Pid opts :=
  { d with tableLock := Function.update d.tableLock n none }

def unlink (d : Dir Name Pid opts) (n : Name) : Dir Name Pid opts :=
  { d with files := Function.update d.files n none }

def create (d : Dir Name Pid opts) (n : Name) (table : RefTable opts) (origin : List Name) :
    Dir Name Pid opts :=
  { d with
    files := Function.update d.files n (some table)
    given := Function.update d.given n (some table)
    origin := Function.update d.origin n origin }

/-- The rename of `flock_commit`, which replaces `tables.list` and gives up the lock. -/
def replaceList (d : Dir Name Pid opts) (names new : List Name) : Dir Name Pid opts :=
  { d with tablesList := names, listLock := none, listed := d.listed ++ new }

def commit (d : Dir Name Pid opts) (names new : List Name) : Dir Name Pid opts :=
  { d.replaceList (names ++ new) new with committed := d.committed ++ [new] }

/-- The tables that somebody who reads `tables.list` now finds. -/
def tables (d : Dir Name Pid opts) : List (RefTable opts) :=
  d.tablesList.filterMap d.files

end Dir

abbrev Table (Name : Type) (opts : WriteOptions) := Name × RefTable opts

def tableNames (tables : List (Table Name opts)) : List Name :=
  tables.map Prod.fst

def stackNextUpdateIndex (tables : List (Table Name opts)) : UInt64 :=
  match tables.getLast? with
  | some table => table.2.maxUpdateIndex + 1
  | none => 1

def mergedMaxUpdateIndex (tables : List (Table Name opts)) : UInt64 :=
  tables.foldl (fun max table => if table.2.maxUpdateIndex > max then table.2.maxUpdateIndex else max) 0

/-- The arguments of `stack_compact_range`; `first` moves up in a best effort. -/
structure CompactRange where
  first : Nat
  last : Nat
  expiry : Option (LogRecord → Bool)
  bestEffort : Bool

def CompactRange.range {α : Type*} (c : CompactRange) (l : List α) : List α :=
  (l.take (c.last + 1)).drop c.first

def CompactRange.expired (c : CompactRange) : LogRecord → Bool :=
  c.expiry.getD noExpiry

/-- What the process has taken the lock of `tables.list` for. -/
inductive Begin
  | addition (reload : Bool)
  | clean
  | compact (c : CompactRange)

/-- The callers of `reftable_stack_reload_maybe_reuse`. -/
inductive Cont (Name : Type)
  | newStack
  | reload
  | initAddition
  | clean
  | compacted (locks : List Name)

/-- Where a process stands in the code of `stack.c`. -/
inductive Pc (Name : Type) (opts : WriteOptions)
  | closed
  | idle
  | reloading (reuseOpen : Bool) (k : Cont Name)
  | opening (reuseOpen : Bool) (k : Cont Name) (todo : List Name) (opened : List (Table Name opts))
  | closing (k : Cont Name) (stale : List Name) (opened : List (Table Name opts))
  | checking (b : Begin)
  | addition (nextUpdateIndex : UInt64) (newTables : List (Table Name opts))
  | additionClose (newTables : List Name)
  | cleanReload
  | cleaning
  | locking (c : CompactRange) (i : Nat)
  | merging (c : CompactRange)
  | relocking (c : CompactRange) (result : Option (RefTable opts))
  | relocating (c : CompactRange) (result : Option (RefTable opts))
  | placing (c : CompactRange) (result : Option (RefTable opts)) (names : List Name) (offset : Nat)
  | replacing (c : CompactRange) (names : List Name) (offset : Nat) (newTable : Option Name)
  | unlinking (todo locks : List Name)
  | unlocking (holdsList : Bool) (locks : List Name)
  | destroying (todo : List Name)

def Cont.ok (k : Cont Name) (tables : List (Table Name opts)) : Pc Name opts :=
  match k with
  | .newStack | .reload => .idle
  | .initAddition => .addition (stackNextUpdateIndex tables) []
  | .clean => .cleaning
  | .compacted locks => .unlinking locks locks

def Cont.fail (k : Cont Name) : Pc Name opts :=
  match k with
  | .newStack => .closed
  | .reload => .idle
  | .initAddition | .clean => .additionClose []
  | .compacted locks => .unlocking false locks

/-- Past its deadline a reload reports success although it did nothing. A new stack is then without
merged table and can only be destroyed. -/
def Cont.giveUp (k : Cont Name) (tables : List (Table Name opts)) : Pc Name opts :=
  match k with
  | .newStack => .closed
  | k => k.ok tables

structure Proc (Name : Type) (opts : WriteOptions) where
  tables : List (Table Name opts)
  pc : Pc Name opts

inductive Begins (tables : List (Table Name opts)) : Begin → Prop
  | addition (reload : Bool) : Begins tables (.addition reload)
  | clean : Begins tables .clean
  | compactAll (expiry : Option (LogRecord → Bool)) :
    tables ≠ [] → (expiry = none → 1 < tables.length) →
    Begins tables (.compact ⟨0, tables.length - 1, expiry, false⟩)
  | autoCompact (sizes : List UInt64) (factor : UInt8) (seg : Segment) :
    sizes.length = tables.length → seg = suggestCompactionSegment sizes factor →
    0 < seg.stop - seg.start → Begins tables (.compact ⟨seg.start, seg.stop - 1, none, true⟩)

/-- The search of `stack_compact_range` for the compacted tables in a changed list. -/
def relocate (names range : List Name) : Option Nat :=
  match range with
  | [] => none
  | n :: _ => if n ∈ names ∧ range <+: names.drop (names.idxOf n) then some (names.idxOf n) else none

/-- The table of a writer, or none if nothing was written: `REFTABLE_EMPTY_TABLE_ERROR`. -/
def writtenTable (wr : Writer opts) : Option (RefTable opts) :=
  if wr.refs.records = [] ∧ wr.logs.records = [] then none else some (writerClose wr)

def replacedNames (c : CompactRange) (names : List Name) (offset : Nat) (newTable : Option Name) : List Name :=
  names.take offset ++ newTable.toList ++ names.drop (offset + (c.last - c.first) + 1)

section Step

variable (blockError : BlockError opts) (writes : List (RefTable opts) → RefTable opts → Prop)

/-- A step of the process `p`. `writes` is what the callbacks of additions may write, given the
tables that they have added. Table names never repeat. -/
inductive ProcStep (p : Pid) : Dir Name Pid opts → Proc Name opts → Dir Name Pid opts → Proc Name opts → Prop
  -- reftable_new_stack and reftable_stack_reload
  | newStack (d) : ProcStep p d ⟨[], .closed⟩ d ⟨[], .reloading true .newStack⟩
  | reload (d tables) : d.tablesList ≠ tableNames tables →
    ProcStep p d ⟨tables, .idle⟩ d ⟨tables, .reloading true .reload⟩
  -- reftable_stack_reload_maybe_reuse
  | readList (d tables reuseOpen k) :
    ProcStep p d ⟨tables, .reloading reuseOpen k⟩ d ⟨tables, .opening reuseOpen k d.tablesList []⟩
  | readListFail (d tables reuseOpen k) :
    ProcStep p d ⟨tables, .reloading reuseOpen k⟩ d ⟨tables, k.fail⟩
  | reuseTable (d tables k n table todo opened) : tables.lookup n = some table →
    ProcStep p d ⟨tables, .opening true k (n :: todo) opened⟩
      d ⟨tables, .opening true k todo (opened ++ [(n, table)])⟩
  | openTable (d tables reuseOpen k n table todo opened) :
    (reuseOpen = true → tables.lookup n = none) → d.files n = some table →
    ProcStep p d ⟨tables, .opening reuseOpen k (n :: todo) opened⟩
      d ⟨tables, .opening reuseOpen k todo (opened ++ [(n, table)])⟩
  | openFail (d tables reuseOpen k todo opened) :
    ProcStep p d ⟨tables, .opening reuseOpen k todo opened⟩ d ⟨tables, k.fail⟩
  | openRetry (d tables reuseOpen k n todo opened) :
    (reuseOpen = true → tables.lookup n = none) → d.files n = none →
    d.tablesList ≠ tableNames opened ++ n :: todo →
    ProcStep p d ⟨tables, .opening reuseOpen k (n :: todo) opened⟩ d ⟨tables, .reloading reuseOpen k⟩
  | openGiveUp (d tables reuseOpen k n todo opened) :
    (reuseOpen = true → tables.lookup n = none) → d.files n = none →
    d.tablesList ≠ tableNames opened ++ n :: todo →
    ProcStep p d ⟨tables, .opening reuseOpen k (n :: todo) opened⟩ d ⟨tables, k.giveUp tables⟩
  | opened (d tables reuseOpen k opened) :
    ProcStep p d ⟨tables, .opening reuseOpen k [] opened⟩
      d ⟨tables, .closing k ((tableNames tables).filter (fun n => ¬ (reuseOpen = true ∧ n ∈ tableNames opened)))
        opened⟩
  | closeTable (d tables k n stale opened) :
    ProcStep p d ⟨tables, .closing k (n :: stale) opened⟩ (d.unlink n) ⟨tables, .closing k stale opened⟩
  | reloaded (d tables k opened) : ProcStep p d ⟨tables, .closing k [] opened⟩ d ⟨opened, k.ok opened⟩
  -- the lock of tables.list and the check of stack_uptodate
  | lockList (d tables b) : Begins tables b → d.listLock = none →
    ProcStep p d ⟨tables, .idle⟩ (d.lockList p) ⟨tables, .checking b⟩
  | outdated (d tables b) : d.tablesList ≠ tableNames tables →
    ProcStep p d ⟨tables, .checking b⟩ d ⟨tables, .additionClose []⟩
  | outdatedReload (d tables) : d.tablesList ≠ tableNames tables →
    ProcStep p d ⟨tables, .checking (.addition true)⟩ d ⟨tables, .reloading true .initAddition⟩
  | initAddition (d tables reload) : d.tablesList = tableNames tables →
    ProcStep p d ⟨tables, .checking (.addition reload)⟩
      d ⟨tables, .addition (stackNextUpdateIndex tables) []⟩
  -- reftable_addition_add, reftable_addition_commit and reftable_addition_close
  | additionAdd (d tables nextUpdateIndex newTables n wr table) :
    Written blockError wr → writtenTable wr = some table → writes (newTables.map Prod.snd) table →
    nextUpdateIndex ≤ table.minUpdateIndex → d.given n = none →
    ProcStep p d ⟨tables, .addition nextUpdateIndex newTables⟩
      (d.create n table [n]) ⟨tables, .addition nextUpdateIndex (newTables ++ [(n, table)])⟩
  | additionCommit (d tables nextUpdateIndex newTables) : newTables ≠ [] →
    ProcStep p d ⟨tables, .addition nextUpdateIndex newTables⟩
      (d.commit (tableNames tables) (tableNames newTables)) ⟨tables, .reloading true .reload⟩
  | additionAbort (d tables nextUpdateIndex newTables) :
    ProcStep p d ⟨tables, .addition nextUpdateIndex newTables⟩
      d ⟨tables, .additionClose (tableNames newTables)⟩
  | closeNewTable (d tables n newTables) :
    ProcStep p d ⟨tables, .additionClose (n :: newTables)⟩ (d.unlink n) ⟨tables, .additionClose newTables⟩
  | additionClosed (d tables) :
    ProcStep p d ⟨tables, .additionClose []⟩ d.unlockList ⟨tables, .idle⟩
  -- reftable_stack_clean, which reloads once more under the lock
  | cleanAddition (d tables) : d.tablesList = tableNames tables →
    ProcStep p d ⟨tables, .checking .clean⟩ d ⟨tables, .cleanReload⟩
  | cleanReload (d tables) : d.tablesList ≠ tableNames tables →
    ProcStep p d ⟨tables, .cleanReload⟩ d ⟨tables, .reloading true .clean⟩
  | cleanLocked (d tables) : d.tablesList = tableNames tables →
    ProcStep p d ⟨tables, .cleanReload⟩ d ⟨tables, .cleaning⟩
  | cleanTable (d tables n table) : n ∉ tableNames tables → d.files n = some table →
    table.maxUpdateIndex ≤ mergedMaxUpdateIndex tables →
    ProcStep p d ⟨tables, .cleaning⟩ (d.unlink n) ⟨tables, .cleaning⟩
  | cleaned (d tables) : ProcStep p d ⟨tables, .cleaning⟩ d ⟨tables, .additionClose []⟩
  -- stack_compact_range, up to the release of tables.list
  | compactBegin (d tables c) : d.tablesList = tableNames tables →
    ProcStep p d ⟨tables, .checking (.compact c)⟩ d ⟨tables, .locking c (c.last + 1)⟩
  | lockTable (d tables c i n) : c.first < i → (tableNames tables)[i - 1]? = some n → d.tableLock n = none →
    ProcStep p d ⟨tables, .locking c i⟩ (d.lockTable p n) ⟨tables, .locking c (i - 1)⟩
  | lockTaken (d tables c i n) : c.first < i → (tableNames tables)[i - 1]? = some n → d.tableLock n ≠ none →
    c.bestEffort = true → 2 ≤ c.last - (i - 1) →
    ProcStep p d ⟨tables, .locking c i⟩ d ⟨tables, .locking { c with first := i } i⟩
  | lockFail (d tables c i) : c.first < i →
    ProcStep p d ⟨tables, .locking c i⟩
      d ⟨tables, .unlocking true (CompactRange.range { c with first := i } (tableNames tables))⟩
  | locked (d tables c) :
    ProcStep p d ⟨tables, .locking c c.first⟩ d.unlockList ⟨tables, .merging c⟩
  -- the merge, and the replacement in the list
  | merged (d tables c hfirst hlast wr) :
    stackWriteCompact blockError c.expired (tables.map Prod.snd) c.first c.last hfirst hlast = .ok wr →
    ProcStep p d ⟨tables, .merging c⟩ d ⟨tables, .relocking c (writtenTable wr)⟩
  | mergeFail (d tables c) :
    ProcStep p d ⟨tables, .merging c⟩ d ⟨tables, .unlocking false (c.range (tableNames tables))⟩
  | relock (d tables c result) : d.listLock = none →
    ProcStep p d ⟨tables, .relocking c result⟩ (d.lockList p) ⟨tables, .relocating c result⟩
  | relockFail (d tables c result) :
    ProcStep p d ⟨tables, .relocking c result⟩ d ⟨tables, .unlocking false (c.range (tableNames tables))⟩
  | relocateSame (d tables c result) : d.tablesList = tableNames tables →
    ProcStep p d ⟨tables, .relocating c result⟩ d ⟨tables, .placing c result (tableNames tables) c.first⟩
  | relocateMoved (d tables c result offset) : d.tablesList ≠ tableNames tables →
    relocate d.tablesList (c.range (tableNames tables)) = some offset →
    ProcStep p d ⟨tables, .relocating c result⟩ d ⟨tables, .placing c result d.tablesList offset⟩
  | relocateFail (d tables c result) :
    ProcStep p d ⟨tables, .relocating c result⟩ d ⟨tables, .unlocking true (c.range (tableNames tables))⟩
  | placeTable (d tables c table names offset n) : d.given n = none →
    ProcStep p d ⟨tables, .placing c (some table) names offset⟩
      (d.create n table ((c.range (tableNames tables)).flatMap d.origin))
      ⟨tables, .replacing c names offset (some n)⟩
  | placeEmpty (d tables c names offset) :
    ProcStep p d ⟨tables, .placing c none names offset⟩ d ⟨tables, .replacing c names offset none⟩
  | placeFail (d tables c result names offset) :
    ProcStep p d ⟨tables, .placing c result names offset⟩
      d ⟨tables, .unlocking true (c.range (tableNames tables))⟩
  | replaceList (d tables c names offset newTable) :
    ProcStep p d ⟨tables, .replacing c names offset newTable⟩
      (d.replaceList (replacedNames c names offset newTable) newTable.toList)
      ⟨tables, .reloading (c.first < c.last) (.compacted (c.range (tableNames tables)))⟩
  | replaceFail (d tables c names offset n) :
    ProcStep p d ⟨tables, .replacing c names offset (some n)⟩
      (d.unlink n) ⟨tables, .unlocking true (c.range (tableNames tables))⟩
  | replaceFailEmpty (d tables c names offset) :
    ProcStep p d ⟨tables, .replacing c names offset none⟩
      d ⟨tables, .unlocking true (c.range (tableNames tables))⟩
  | unlinkOld (d tables n todo locks) :
    ProcStep p d ⟨tables, .unlinking (n :: todo) locks⟩ (d.unlink n) ⟨tables, .unlinking todo locks⟩
  | unlinkedOld (d tables locks) :
    ProcStep p d ⟨tables, .unlinking [] locks⟩ d ⟨tables, .unlocking false locks⟩
  | unlockList (d tables locks) :
    ProcStep p d ⟨tables, .unlocking true locks⟩ d.unlockList ⟨tables, .unlocking false locks⟩
  | unlockTable (d tables n locks) :
    ProcStep p d ⟨tables, .unlocking false (n :: locks)⟩ (d.unlockTable n) ⟨tables, .unlocking false locks⟩
  | unlocked (d tables) : ProcStep p d ⟨tables, .unlocking false []⟩ d ⟨tables, .idle⟩
  -- reftable_stack_destroy
  | destroy (d tables) :
    ProcStep p d ⟨tables, .idle⟩ d ⟨tables, .destroying ((tableNames tables).filter (· ∉ d.tablesList))⟩
  | destroyTable (d tables n todo) :
    ProcStep p d ⟨tables, .destroying (n :: todo)⟩ (d.unlink n) ⟨tables, .destroying todo⟩
  | destroyed (d tables) : ProcStep p d ⟨tables, .destroying []⟩ d ⟨[], .closed⟩
  | destroyUnread (d tables) : ProcStep p d ⟨tables, .idle⟩ d ⟨[], .closed⟩

structure System (Name Pid : Type) (opts : WriteOptions) where
  dir : Dir Name Pid opts
  procs : Pid → Proc Name opts

def System.init : System Name Pid opts :=
  ⟨.init, fun _ => ⟨[], .closed⟩⟩

variable [DecidableEq Pid]

inductive Step : System Name Pid opts → System Name Pid opts → Prop
  | step (p : Pid) (s : System Name Pid opts) (d' : Dir Name Pid opts) (proc' : Proc Name opts) :
    ProcStep blockError writes p s.dir (s.procs p) d' proc' →
    Step s ⟨d', Function.update s.procs p proc'⟩

def Reachable (s : System Name Pid opts) : Prop :=
  Relation.ReflTransGen (Step blockError writes) System.init s

end Step

end GitCore.Stack
