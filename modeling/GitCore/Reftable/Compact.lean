import Mathlib.Data.List.DropRight
import GitCore.Reftable.MergedSpec

/-!
# Writing a compacted table

`reftable_writer` at the level of records, and `stack_write_compact`. Blocks are not modelled
here: what `block_writer_add` refuses is the parameter `blockError`.
-/

namespace GitCore.Reftable

open Overlay (Sorted)

inductive HashId
  | sha1
  | sha256
deriving DecidableEq

structure WriteOptions where
  hashId : HashId
  exactLogMessage : Bool

inductive ReftableError
  | format
  | api
  | entryTooBig
  | io
deriving DecidableEq

structure RecordSection {R : Type} (key : R → List UInt8) where
  records : List R
  sorted : Sorted key records

namespace RecordSection

variable {R : Type} {key : R → List UInt8}

def empty : RecordSection key := ⟨[], List.Pairwise.nil⟩

def lastKey (s : RecordSection key) : List UInt8 :=
  (s.records.getLast?.map key).getD []

lemma le_lastKey (s : RecordSection key) {r : R} (hr : r ∈ s.records) : key r ≤ s.lastKey := by
  obtain ⟨records, hsorted⟩ := s
  simp only at hr
  cases records using List.reverseRecOn with
  | nil => simp at hr
  | append_singleton records last =>
    simp only [lastKey, List.getLast?_concat, Option.map_some, Option.getD_some]
    rcases List.mem_append.mp hr with hr | hr
    · exact (List.pairwise_append.mp hsorted).2.2 r hr last (by simp) |>.le
    · obtain rfl : r = last := by simpa using hr
      exact le_rfl

/-- The order check of `writer_add_record`. -/
def add (s : RecordSection key) (r : R) : Option (RecordSection key) :=
  if h : s.lastKey < key r then
    some ⟨s.records ++ [r], List.pairwise_append.mpr ⟨s.sorted, List.pairwise_singleton _ _, by
      intro a ha b hb
      obtain rfl : b = r := by simpa using hb
      exact (s.le_lastKey ha).trans_lt h⟩⟩
  else none

lemma add_eq_some {s s' : RecordSection key} {r : R} (h : s.add r = some s') :
    s'.records = s.records ++ [r] := by
  unfold add at h
  split_ifs at h
  cases h
  rfl

end RecordSection

/-- The clean-up of a message in `reftable_writer_add_log`: one line that ends in a newline. -/
def cleanLogMessage (message : CString) : Option CString :=
  let cleaned := message.bytes.rdropWhile (· = 10)
  if 10 ∈ cleaned then none
  else some ⟨cleaned ++ [10], by
    have hsub : ∀ c ∈ cleaned, c ∈ message.bytes := (List.rdropWhile_prefix _ _).subset
    intro h
    rcases List.mem_append.mp h with h | h
    · exact message.no_nul (hsub 0 h)
    · simp at h⟩

/-- A log record as `reftable_writer_add_log` passes it on. -/
def cleanLog (opts : WriteOptions) (log : LogRecord) : Option LogRecord :=
  match log.value with
  | .deletion => some log
  | .update value =>
    if opts.exactLogMessage then some log
    else (cleanLogMessage value.message).map fun message =>
      { log with value := .update { value with message := message } }

lemma cleanLogMessage_idem {message cleaned : CString} (h : cleanLogMessage message = some cleaned) :
    cleanLogMessage cleaned = some cleaned := by
  unfold cleanLogMessage at h ⊢
  simp only at h
  split_ifs at h with hnl
  cases h
  have hdrop : (message.bytes.rdropWhile (· = 10) ++ [10]).rdropWhile (· = 10) =
      message.bytes.rdropWhile (· = 10) := by
    rw [List.rdropWhile_concat_pos _ _ _ (by simp)]
    exact List.rdropWhile_idempotent _ _
  simp only [hdrop, if_neg hnl]

lemma cleanLog_idem {opts : WriteOptions} {log cleaned : LogRecord}
    (h : cleanLog opts log = some cleaned) : cleanLog opts cleaned = some cleaned := by
  unfold cleanLog at h
  split at h
  · next hv =>
    cases h
    simp [cleanLog, hv]
  · next value hv =>
    split_ifs at h with he
    · cases h
      simp [cleanLog, hv, he]
    · obtain ⟨message, hm, rfl⟩ := Option.map_eq_some_iff.mp h
      simp [cleanLog, he, cleanLogMessage_idem hm]

/-- A table that was written with the options `opts`. -/
structure RefTable (opts : WriteOptions) where
  hashId : HashId
  minUpdateIndex : UInt64
  maxUpdateIndex : UInt64
  refs : RecordSection RefRecord.key
  logs : RecordSection LogRecord.key
  logs_clean : ∀ log ∈ logs.records, cleanLog opts log = some log

/-- `struct reftable_writer`: the records written so far. -/
structure Writer (opts : WriteOptions) where
  minUpdateIndex : UInt64
  maxUpdateIndex : UInt64
  refs : RecordSection RefRecord.key
  logs : RecordSection LogRecord.key
  logs_clean : ∀ log ∈ logs.records, cleanLog opts log = some log

section Writer

variable {opts : WriteOptions}

def writerNew (opts : WriteOptions) : Writer opts :=
  ⟨0, 0, .empty, .empty, by simp [RecordSection.empty]⟩

/-- `reftable_writer_set_limits`; refused once something was written. -/
def writerSetLimits (wr : Writer opts) (min max : UInt64) : Except ReftableError (Writer opts) :=
  if wr.refs.records ≠ [] ∨ wr.logs.records ≠ [] then .error .api
  else .ok { wr with minUpdateIndex := min, maxUpdateIndex := max }

def writerClose (wr : Writer opts) : RefTable opts :=
  ⟨opts.hashId, wr.minUpdateIndex, wr.maxUpdateIndex, wr.refs, wr.logs, wr.logs_clean⟩

/-- What `block_writer_add` and the flushing of full blocks can fail with. -/
structure BlockError (opts : WriteOptions) where
  ref : Writer opts → RefRecord → Option ReftableError
  log : Writer opts → LogRecord → Option ReftableError

variable (blockError : BlockError opts)

def writerAddRef (wr : Writer opts) (ref : RefRecord) : Except ReftableError (Writer opts) :=
  if ref.updateIndex < wr.minUpdateIndex ∨ ref.updateIndex > wr.maxUpdateIndex then .error .api
  -- the block that is being written is one of logs
  else if wr.logs.records ≠ [] then .error .api
  else match wr.refs.add ref with
    | none => .error .api
    | some refs =>
      match blockError.ref wr ref with
      | some err => .error err
      | none => .ok { wr with refs := refs }

/-- `reftable_writer_add_log_verbatim` for a record that is clean already. -/
def writerAddLogVerbatim (wr : Writer opts) (log : LogRecord) (hclean : cleanLog opts log = some log) :
    Except ReftableError (Writer opts) :=
  match h : wr.logs.add log with
  | none => .error .api
  | some logs =>
    match blockError.log wr log with
    | some err => .error err
    | none => .ok
      { wr with
        logs := logs
        logs_clean := by
          rw [RecordSection.add_eq_some h]
          intro l hl
          rcases List.mem_append.mp hl with hl | hl
          · exact wr.logs_clean l hl
          · obtain rfl : l = log := by simpa using hl
            exact hclean }

/-- `reftable_writer_add_log`. Only the upper limit is checked, and not for deletions. -/
def writerAddLog (wr : Writer opts) (log : LogRecord) : Except ReftableError (Writer opts) :=
  if ¬ log.isDeletion ∧ log.updateIndex > wr.maxUpdateIndex then .error .api
  else match h : cleanLog opts log with
    | none => .error .api
    | some cleaned => writerAddLogVerbatim blockError wr cleaned (cleanLog_idem h)

inductive Written : Writer opts → Prop
  | new : Written (writerNew opts)
  | setLimits {wr wr' : Writer opts} {min max : UInt64} :
    Written wr → writerSetLimits wr min max = .ok wr' → Written wr'
  | addRef {wr wr' : Writer opts} {ref : RefRecord} :
    Written wr → writerAddRef blockError wr ref = .ok wr' → Written wr'
  | addLog {wr wr' : Writer opts} {log : LogRecord} :
    Written wr → writerAddLog blockError wr log = .ok wr' → Written wr'

end Writer

section Compact

variable {opts : WriteOptions} (blockError : BlockError opts)

def seekLogKey (refname : CString) : List UInt8 :=
  LogRecord.key ⟨refname, ~~~0, .deletion⟩

def CString.empty : CString := ⟨[], nul_notMem_nil⟩

def mergedRefs (tables : List (RefTable opts)) : List RefRecord :=
  mergedIterDrain refVtable
    (mergedIterSeek refVtable (mergedTableInitIter (tables.map (·.refs.records)) false) [])

def mergedLogs (tables : List (RefTable opts)) : List LogRecord :=
  mergedIterDrain logVtable
    (mergedIterSeek logVtable (mergedTableInitIter (tables.map (·.logs.records)) false)
      (seekLogKey .empty))

/-- The loop over the refs: tombstones are dropped when nothing lies below the range. -/
def compactRefs (first : Nat) (wr : Writer opts) (refs : List RefRecord) :
    Except ReftableError (Writer opts) :=
  refs.foldlM (fun wr ref =>
    if first = 0 ∧ ref.isDeletion then .ok wr else writerAddRef blockError wr ref) wr

/-- The loop over the logs. `expired` is the test that an expiry config makes; for a tombstone it
reads a time that decoding leaves untouched, so it may be any predicate. -/
def compactLogs (expired : LogRecord → Bool) (first : Nat) (wr : Writer opts) (logs : List LogRecord) :
    Except ReftableError (Writer opts) :=
  logs.foldlM (fun wr log =>
    if first = 0 ∧ log.isDeletion then .ok wr
    else if expired log then .ok wr
    else writerAddLog blockError wr log) wr

def noExpiry : LogRecord → Bool := fun _ => false

def stackWriteCompact (expired : LogRecord → Bool) (tables : List (RefTable opts)) (first last : Nat)
    (hfirst : first ≤ last) (hlast : last < tables.length) : Except ReftableError (Writer opts) := do
  let wr ← writerSetLimits (writerNew opts) tables[first].minUpdateIndex tables[last].maxUpdateIndex
  let range := (tables.drop first).take (last - first + 1)
  if range.any (fun table => table.hashId ≠ opts.hashId) then .error .format
  let wr ← compactRefs blockError first wr (mergedRefs range)
  compactLogs blockError expired first wr (mergedLogs range)

def stackReadRef (tables : List (RefTable opts)) (refname : CString) : Option RefRecord :=
  mergedLookup refVtable (tables.map (·.refs.records)) refname.bytes

def stackReadLogAt (tables : List (RefTable opts)) (refname : CString) (updateIndex : UInt64) :
    Option LogRecord :=
  mergedLookup logVtable (tables.map (·.logs.records)) (LogRecord.key ⟨refname, updateIndex, .deletion⟩)

end Compact

end GitCore.Reftable

/-!
# Compaction keeps the merged view

The table that `stack_write_compact` writes overlays like the tables it was written from, when
the log records of different tables compare like their keys.
-/

namespace GitCore.Reftable

open Overlay (Sorted newest find)

variable {opts : WriteOptions}

/-- The difference of two update indices as an `int` still tells how they are ordered. -/
def IndexComparable (a b : UInt64) : Prop :=
  (toCInt (b - a) < 0 ↔ b < a) ∧ (toCInt (b - a) = 0 ↔ a = b)

/-- `reftable_log_record_cmp_void` is right about all records of one ref in different tables. -/
def LogsComparable (tables : List (RefTable opts)) : Prop :=
  tables.Pairwise fun table table' => ∀ a ∈ table.logs.records, ∀ b ∈ table'.logs.records,
    a.refname = b.refname →
      IndexComparable a.updateIndex b.updateIndex ∧ IndexComparable b.updateIndex a.updateIndex

lemma logVtable_cmpExact {a b : LogRecord}
    (h : a.refname = b.refname → IndexComparable a.updateIndex b.updateIndex) :
    logVtable.CmpExact a b := by
  have hlt : logVtable.key a < logVtable.key b ↔ _ := LogRecord.key_lt
  have heq : logVtable.key a = logVtable.key b ↔ _ := LogRecord.key_eq
  by_cases hname : a.refname = b.refname
  · have hcmp : logVtable.cmp a b = toCInt (b.updateIndex - a.updateIndex) := by
      have hzero : strcmp a.refname b.refname = 0 := by
        rw [hname]
        exact reftableBufCmp_zero.mpr rfl
      simp only [logVtable, LogRecord.cmp, hzero, ne_eq, not_true_eq_false, if_false]
    rw [RecordVtable.CmpExact, hlt, heq, hcmp, hname]
    simpa [IndexComparable] using h hname
  · have hbytes : a.refname.bytes ≠ b.refname.bytes := fun h => hname (CString.bytes_inj.mp h)
    have hne : strcmp a.refname b.refname ≠ 0 := fun h => hbytes (reftableBufCmp_zero.mp h)
    have hcmp : logVtable.cmp a b = strcmp a.refname b.refname := by
      simp only [logVtable, LogRecord.cmp, ne_eq, hne, not_false_eq_true, if_true]
    have hneg : strcmp a.refname b.refname < 0 ↔ _ := reftableBufCmp_neg
    rw [RecordVtable.CmpExact, hlt, heq, hcmp, hneg]
    simp [hname, hbytes, hne]

@[simp]
lemma toCInt_zero : toCInt 0 = 0 := by
  decide

lemma bmod_emod_of_near {x : Int} (hlt : x < 2 ^ 31) (hge : -2 ^ 31 ≤ x) :
    Int.bmod (x % 2 ^ 64) (2 ^ 32) = x := by
  rw [Int.bmod_def]
  norm_num at *
  omega

lemma toCInt_sub_eq {a b : UInt64} (hlt : (b.toNat : Int) - a.toNat < 2 ^ 31)
    (hge : -2 ^ 31 ≤ (b.toNat : Int) - a.toNat) : toCInt (b - a) = b.toNat - a.toNat := by
  have ha := a.toNat_lt
  have hb := b.toNat_lt
  have hsub : ((b - a).toNat : Int) = ((b.toNat : Int) - a.toNat) % 2 ^ 64 := by
    rw [UInt64.toNat_sub]
    omega
  unfold toCInt
  rw [hsub, bmod_emod_of_near hlt hge]

lemma indexComparable_of_near {a b : UInt64} (hlt : (b.toNat : Int) - a.toNat < 2 ^ 31)
    (hge : -2 ^ 31 ≤ (b.toNat : Int) - a.toNat) : IndexComparable a b := by
  rw [IndexComparable, toCInt_sub_eq hlt hge, UInt64.lt_iff_toNat_lt, ← UInt64.toNat_inj]
  omega

lemma tablesOk_refs (tables : List (RefTable opts)) :
    TablesOk refVtable (tables.map (·.refs.records)) where
  sorted := by
    intro table htable
    obtain ⟨t, -, rfl⟩ := List.mem_map.mp htable
    exact t.refs.sorted
  self r := refVtable_cmpExact r r
  exact := by
    rw [List.pairwise_map]
    exact List.pairwise_of_forall fun t t' r _ s _ => ⟨refVtable_cmpExact r s, refVtable_cmpExact s r⟩

lemma tablesOk_logs {tables : List (RefTable opts)} (h : LogsComparable tables) :
    TablesOk logVtable (tables.map (·.logs.records)) where
  sorted := by
    intro table htable
    obtain ⟨t, -, rfl⟩ := List.mem_map.mp htable
    exact t.logs.sorted
  self r := logVtable_cmpExact fun _ => by simp [IndexComparable]
  exact := by
    rw [List.pairwise_map]
    refine h.imp fun {t t'} hpair a ha b hb => ⟨?_, ?_⟩
    · exact logVtable_cmpExact fun hname => (hpair a ha b hb hname).1
    · exact logVtable_cmpExact fun hname => (hpair a ha b hb hname.symm).2

section Loops

variable (blockError : BlockError opts) {first : Nat}

lemma writerAddRef_eq_ok {wr wr' : Writer opts} {ref : RefRecord}
    (h : writerAddRef blockError wr ref = .ok wr') :
    wr'.refs.records = wr.refs.records ++ [ref] ∧ wr'.logs.records = wr.logs.records := by
  unfold writerAddRef at h
  split_ifs at h
  split at h
  · cases h
  · next hadd =>
    split at h
    · cases h
    · cases h
      exact ⟨RecordSection.add_eq_some hadd, rfl⟩

lemma writerAddLog_eq_ok {wr wr' : Writer opts} {log : LogRecord} (hclean : cleanLog opts log = some log)
    (h : writerAddLog blockError wr log = .ok wr') :
    wr'.logs.records = wr.logs.records ++ [log] ∧ wr'.refs.records = wr.refs.records := by
  unfold writerAddLog at h
  split_ifs at h
  split at h
  · cases h
  · next cleaned hc =>
    obtain rfl : log = cleaned := by simpa [hclean] using hc
    unfold writerAddLogVerbatim at h
    split at h
    · cases h
    · next hadd =>
      split at h
      · cases h
      · cases h
        exact ⟨RecordSection.add_eq_some hadd, rfl⟩

lemma compactRefs_eq_ok {refs : List RefRecord} {wr wr' : Writer opts}
    (h : compactRefs blockError first wr refs = .ok wr') :
    wr'.refs.records = wr.refs.records ++ refs.filter (fun ref => ¬ (first = 0 ∧ ref.isDeletion)) ∧
      wr'.logs.records = wr.logs.records := by
  induction refs generalizing wr with
  | nil =>
    cases h
    simp
  | cons ref refs ih =>
    rw [compactRefs, List.foldlM_cons] at h
    split_ifs at h with hdrop
    · obtain ⟨hrefs, hlogs⟩ := ih h
      exact ⟨by rw [hrefs, List.filter_cons_of_neg (by simp [hdrop])], hlogs⟩
    · cases hadd : writerAddRef blockError wr ref with
      | error err => rw [hadd] at h; cases h
      | ok wr'' =>
        rw [hadd] at h
        obtain ⟨hrefs, hlogs⟩ := ih h
        obtain ⟨hrefs', hlogs'⟩ := writerAddRef_eq_ok blockError hadd
        rw [hrefs, hrefs', hlogs, hlogs', List.filter_cons_of_pos (by rw [decide_eq_true_iff]; exact hdrop)]
        simp

lemma compactLogs_eq_ok {logs : List LogRecord} {wr wr' : Writer opts}
    (hclean : ∀ log ∈ logs, cleanLog opts log = some log)
    (h : compactLogs blockError noExpiry first wr logs = .ok wr') :
    wr'.logs.records = wr.logs.records ++ logs.filter (fun log => ¬ (first = 0 ∧ log.isDeletion)) := by
  induction logs generalizing wr with
  | nil =>
    cases h
    simp
  | cons log logs ih =>
    have ih {wr : Writer opts} := @ih wr fun l hl => hclean l (by simp [hl])
    rw [compactLogs, List.foldlM_cons] at h
    split_ifs at h with hdrop hexpired
    · rw [ih h, List.filter_cons_of_neg (by simp [hdrop])]
    · cases hexpired
    · cases hadd : writerAddLog blockError wr log with
      | error err => rw [hadd] at h; cases h
      | ok wr'' =>
        rw [hadd] at h
        obtain ⟨hlogs', -⟩ := writerAddLog_eq_ok blockError (hclean log (by simp)) hadd
        rw [ih h, hlogs', List.filter_cons_of_pos (by rw [decide_eq_true_iff]; exact hdrop)]
        simp

end Loops

section Replace

variable {R : Type} {vt : RecordVtable R} {older mid newer : List (List R)} {table : List R}

def keepsRecord (vt : RecordVtable R) (first : Nat) (r : R) : Bool :=
  ¬ (first = 0 ∧ vt.isDeletion r)

lemma find_compacted {first : Nat} {want : List UInt8} (hok : TablesOk vt mid)
    (hwant : ∀ t ∈ mid, ∀ r ∈ t, want ≤ vt.key r) (hfirst : first = 0 → older = [])
    (htable : table = (mergedIterDrain vt (mergedIterSeek vt (mergedTableInitIter mid false) want)).filter
      (keepsRecord vt first)) (k : List UInt8) :
    find vt.key table k = newest vt.key mid k ∨
      older = [] ∧ find vt.key table k = (newest vt.key mid k).filter (fun r => ¬ vt.isDeletion r) := by
  obtain ⟨hsorted, hfind⟩ := mergedIterDrain_eq_newest hok hwant
  have heq := (Overlay.find_filter hsorted (keepsRecord vt first) k).trans (by rw [hfind])
  rw [← htable] at heq
  by_cases h0 : first = 0
  · have hkeeps : keepsRecord vt first = fun r => decide (¬ vt.isDeletion r) := by
      funext r
      simp [keepsRecord, h0]
    exact .inr ⟨hfirst h0, by rw [heq, hkeeps]⟩
  · have hkeeps : keepsRecord vt first = fun _ => true := by
      funext r
      simp [keepsRecord, h0]
    refine .inl ?_
    rw [heq, hkeeps]
    cases newest vt.key mid k <;> rfl

lemma mergedLookup_replace (hok : TablesOk vt (older ++ mid ++ newer))
    (hok' : TablesOk vt (older ++ table :: newer)) {k : List UInt8}
    (h : find vt.key table k = newest vt.key mid k ∨
      older = [] ∧ find vt.key table k = (newest vt.key mid k).filter (fun r => ¬ vt.isDeletion r)) :
    mergedLookup vt (older ++ table :: newer) k = mergedLookup vt (older ++ mid ++ newer) k := by
  rw [mergedLookup_eq_newest hok, mergedLookup_eq_newest hok', Overlay.newest_replace newer h]

lemma TablesOk.range (hok : TablesOk vt (older ++ mid ++ newer)) : TablesOk vt mid where
  sorted t ht := hok.sorted t (by simp [ht])
  self := hok.self
  exact := (List.pairwise_append.mp (List.pairwise_append.mp hok.exact).1).2.1

lemma mem_of_mem_drain {want : List UInt8} (hok : TablesOk vt mid)
    (hwant : ∀ t ∈ mid, ∀ r ∈ t, want ≤ vt.key r) {r : R}
    (hr : r ∈ mergedIterDrain vt (mergedIterSeek vt (mergedTableInitIter mid false) want)) :
    ∃ t ∈ mid, r ∈ t := by
  obtain ⟨hsorted, hfind⟩ := mergedIterDrain_eq_newest hok hwant
  have hnew := (hfind (vt.key r)).symm.trans ((Overlay.find_eq_some hsorted).mpr ⟨hr, rfl⟩)
  obtain ⟨-, i, ⟨t, ht, hrt⟩, -⟩ := (Overlay.newest_eq_some hok.sorted).mp hnew
  exact ⟨t, List.mem_of_getElem? ht, hrt⟩

lemma TablesOk.replace (hok : TablesOk vt (older ++ mid ++ newer)) (hsorted : Sorted vt.key table)
    (hsub : ∀ r ∈ table, ∃ t ∈ mid, r ∈ t) : TablesOk vt (older ++ table :: newer) := by
  obtain ⟨hom, hnewer, hcross⟩ := List.pairwise_append.mp hok.exact
  obtain ⟨holder, -, hcross'⟩ := List.pairwise_append.mp hom
  refine ⟨fun t ht => ?_, hok.self, List.pairwise_append.mpr ⟨holder, List.pairwise_cons.mpr ⟨?_, hnewer⟩, ?_⟩⟩
  · rcases List.mem_append.mp ht with ht | ht
    · exact hok.sorted t (by simp [ht])
    · rcases List.mem_cons.mp ht with rfl | ht
      · exact hsorted
      · exact hok.sorted t (by simp [ht])
  · intro t ht r hr s hs
    obtain ⟨t', ht', hr⟩ := hsub r hr
    exact hcross t' (by simp [ht']) t ht r hr s hs
  · intro t ht t' ht' r hr s hs
    rcases List.mem_cons.mp ht' with rfl | ht'
    · obtain ⟨t'', ht'', hs⟩ := hsub s hs
      exact hcross' t ht t'' ht'' r hr s hs
    · exact hcross t (by simp [ht]) t' ht' r hr s hs

end Replace

section Range

variable {blockError : BlockError opts} {expired : LogRecord → Bool} {tables : List (RefTable opts)}
  {first last : Nat}

lemma split_range (tables : List (RefTable opts)) (first last : Nat) (hfirst : first ≤ last) :
    tables = tables.take first ++ (tables.drop first).take (last - first + 1) ++ tables.drop (last + 1) := by
  have hdrop : tables.drop (last + 1) = (tables.drop first).drop (last - first + 1) := by
    rw [List.drop_drop]
    congr 1
    omega
  rw [List.append_assoc, hdrop, List.take_append_drop, List.take_append_drop]

lemma seekLogKey_le (log : LogRecord) : seekLogKey .empty ≤ log.key := by
  rw [← not_lt]
  intro h
  rcases LogRecord.key_lt.mp h with h | ⟨-, h⟩
  · exact absurd h (List.not_lt_nil _)
  · have hlog := log.updateIndex.toNat_lt
    have hmax : (~~~0 : UInt64).toNat = 2 ^ 64 - 1 := by decide
    have hlt := UInt64.lt_iff_toNat_lt.mp h
    simp only [hmax] at hlt
    omega

variable {hfirst : first ≤ last} {hlast : last < tables.length}

lemma stackWriteCompact_eq_ok {wr : Writer opts}
    (hlt : first < tables.length)
    (h : stackWriteCompact blockError expired tables first last hfirst hlast = .ok wr) :
    ∃ wr₀ wr₁ : Writer opts, wr₀.refs.records = [] ∧ wr₀.logs.records = [] ∧
      wr₀.minUpdateIndex = tables[first].minUpdateIndex ∧ wr₀.maxUpdateIndex = tables[last].maxUpdateIndex ∧
      compactRefs blockError first wr₀ (mergedRefs ((tables.drop first).take (last - first + 1))) = .ok wr₁ ∧
      compactLogs blockError expired first wr₁ (mergedLogs ((tables.drop first).take (last - first + 1))) =
        .ok wr := by
  have hnew : (writerNew opts).refs.records = [] ∧ (writerNew opts).logs.records = [] := ⟨rfl, rfl⟩
  unfold stackWriteCompact writerSetLimits at h
  rw [if_neg (by simp [hnew])] at h
  simp only [bind, Except.bind] at h
  split_ifs at h
  split at h
  · cases h
  · next wr₁ hrefs => exact ⟨_, wr₁, rfl, rfl, rfl, rfl, hrefs, h⟩

lemma writerAddLog_refs {wr wr' : Writer opts} {log : LogRecord}
    (h : writerAddLog blockError wr log = .ok wr') : wr'.refs = wr.refs := by
  unfold writerAddLog at h
  split_ifs at h
  split at h
  · cases h
  · unfold writerAddLogVerbatim at h
    split at h
    · cases h
    · split at h
      · cases h
      · cases h
        rfl

lemma compactLogs_refs {logs : List LogRecord} {wr wr' : Writer opts}
    (h : compactLogs blockError expired first wr logs = .ok wr') : wr'.refs = wr.refs := by
  induction logs generalizing wr with
  | nil =>
    cases h
    rfl
  | cons log logs ih =>
    rw [compactLogs, List.foldlM_cons] at h
    split_ifs at h
    · exact ih h
    · exact ih h
    · cases hadd : writerAddLog blockError wr log with
      | error err => rw [hadd] at h; cases h
      | ok wr'' =>
        rw [hadd] at h
        exact (ih h).trans (writerAddLog_refs hadd)

lemma stackWriteCompact_findRef {wr : Writer opts}
    (older : List (List RefRecord))
    (h : stackWriteCompact blockError expired tables first last hfirst hlast = .ok wr)
    (holder : first = 0 → older = []) (k : List UInt8) :
    let mid := ((tables.drop first).take (last - first + 1)).map (·.refs.records)
    find refVtable.key wr.refs.records k = newest refVtable.key mid k ∨ older = [] ∧
      find refVtable.key wr.refs.records k =
        (newest refVtable.key mid k).filter (fun r => ¬ refVtable.isDeletion r) := by
  intro mid
  obtain ⟨wr₀, wr₁, hempty, -, -, -, hrefs, hlogs⟩ :=
    stackWriteCompact_eq_ok (hfirst.trans_lt hlast) h
  obtain ⟨hwrite, -⟩ := compactRefs_eq_ok blockError hrefs
  rw [hempty, List.nil_append, ← compactLogs_refs hlogs] at hwrite
  exact find_compacted (tablesOk_refs _) (fun _ _ _ _ => not_lt.mp (List.not_lt_nil _)) holder hwrite k

theorem stackWriteCompact_readRef
    {wr : Writer opts}
    (h : stackWriteCompact blockError expired tables first last hfirst hlast = .ok wr) (refname : CString) :
    stackReadRef (tables.take first ++ writerClose wr :: tables.drop (last + 1)) refname =
      stackReadRef tables refname := by
  have hsplit := split_range tables first last hfirst
  have hfind := stackWriteCompact_findRef ((tables.take first).map (·.refs.records)) h
    (fun h0 => by simp [h0]) refname.bytes
  have hok := tablesOk_refs tables
  rw [hsplit, List.map_append, List.map_append] at hok
  have hok' := tablesOk_refs (tables.take first ++ writerClose wr :: tables.drop (last + 1))
  rw [List.map_append, List.map_cons] at hok'
  unfold stackReadRef
  rw [List.map_append, List.map_cons]
  conv_rhs => rw [hsplit, List.map_append, List.map_append]
  exact mergedLookup_replace hok hok' hfind

theorem stackWriteCompact_readLogAt
    {wr : Writer opts} (hcmp : LogsComparable tables)
    (h : stackWriteCompact blockError noExpiry tables first last hfirst hlast = .ok wr) (refname : CString)
    (updateIndex : UInt64) :
    stackReadLogAt (tables.take first ++ writerClose wr :: tables.drop (last + 1)) refname updateIndex =
      stackReadLogAt tables refname updateIndex := by
  obtain ⟨wr₀, wr₁, -, hempty, -, -, hrefs, hlogs⟩ :=
    stackWriteCompact_eq_ok (hfirst.trans_lt hlast) h
  obtain ⟨-, hempty'⟩ := compactRefs_eq_ok blockError hrefs
  have hsplit := split_range tables first last hfirst
  set mid := (tables.drop first).take (last - first + 1)
  have hok := tablesOk_logs hcmp
  rw [hsplit, List.map_append, List.map_append] at hok
  have hwant : ∀ t ∈ mid.map (·.logs.records), ∀ log ∈ t, seekLogKey .empty ≤ logVtable.key log :=
    fun _ _ log _ => seekLogKey_le log
  have hmem (log : LogRecord) (hlog : log ∈ mergedLogs mid) := mem_of_mem_drain hok.range hwant hlog
  have hclean (log : LogRecord) (hlog : log ∈ mergedLogs mid) : cleanLog opts log = some log := by
    obtain ⟨t, ht, hlog⟩ := hmem log hlog
    obtain ⟨table, -, rfl⟩ := List.mem_map.mp ht
    exact table.logs_clean log hlog
  have hwrite := compactLogs_eq_ok blockError hclean hlogs
  rw [hempty', hempty, List.nil_append] at hwrite
  have hfind := @find_compacted _ _ ((tables.take first).map (·.logs.records)) _ _ first _
    hok.range hwant (fun h0 => by simp [h0]) hwrite
    (LogRecord.key ⟨refname, updateIndex, .deletion⟩)
  have hok' := hok.replace wr.logs.sorted fun log hlog => by
    rw [hwrite] at hlog
    exact hmem log (List.mem_filter.mp hlog).1
  unfold stackReadLogAt
  rw [List.map_append, List.map_cons]
  conv_rhs => rw [hsplit, List.map_append, List.map_append]
  exact mergedLookup_replace hok hok' hfind

end Range

section Example

def BlockError.never (opts : WriteOptions) : BlockError opts :=
  ⟨fun _ _ => none, fun _ _ => none⟩

def exampleOptions : WriteOptions := ⟨.sha1, true⟩

lemma nul_notMem_letter : (0 : UInt8) ∉ [97] := by decide

def exampleName : CString := ⟨[97], nul_notMem_letter⟩

def exampleLog (updateIndex : UInt64) : LogRecord :=
  ⟨exampleName, updateIndex, .update ⟨[1], [2], .empty, .empty, 0, 0, .empty⟩⟩

def exampleTable (updateIndex : UInt64) : RefTable exampleOptions where
  hashId := .sha1
  minUpdateIndex := updateIndex
  maxUpdateIndex := updateIndex
  refs := .empty
  logs := ⟨[exampleLog updateIndex], List.pairwise_singleton _ _⟩
  logs_clean := by
    intro log hlog
    obtain rfl : log = exampleLog updateIndex := by simpa using hlog
    rfl

lemma logsComparable_example : LogsComparable [exampleTable 1, exampleTable 2] := by
  refine List.pairwise_pair.mpr fun a ha b hb _ => ?_
  obtain rfl : a = exampleLog 1 := by simpa [exampleTable] using ha
  obtain rfl : b = exampleLog 2 := by simpa [exampleTable] using hb
  exact ⟨indexComparable_of_near (by decide) (by decide), indexComparable_of_near (by decide) (by decide)⟩

end Example

end GitCore.Reftable
