import Mathlib.Data.List.GetD
import GitCore.Refs.Transaction

/-!
# Looking up a reflog entry

`read_ref_at` of `refs.c` over the entries of a reflog, the newest one first, as
`refs_for_each_reflog_ent_reverse` passes them on.
-/

namespace GitCore.Refs

structure ReflogEntry where
  ooid : ObjectId
  noid : ObjectId
  timestamp : Nat
  tz : Int
  message : Strbuf

inductive ReflogWarning
  | gapAfter (date : Nat) (tz : Int)
  | unexpectedlyEnded (date : Nat) (tz : Int)
deriving DecidableEq

/-- `struct read_ref_at_cb`; an out-parameter that is not written yet is `none`. -/
structure ReadRefAtCb where
  atTime : Nat
  cnt : Int
  reccnt : Nat
  oid : ObjectId
  foundIt : Bool
  ooid : ObjectId
  noid : ObjectId
  tz : Int
  date : Nat
  msg : Option Strbuf
  cutoffTime : Option Nat
  cutoffTz : Option Int
  cutoffCnt : Option Nat
  warnings : List ReflogWarning

namespace ReadRefAtCb

def setReadRefCutoffs (cb : ReadRefAtCb) (timestamp : Nat) (tz : Int) (message : Strbuf) : ReadRefAtCb :=
  { cb with msg := some message, cutoffTime := some timestamp, cutoffTz := some tz, cutoffCnt := some cb.reccnt }

/-- The object id for an entry that is found, with a warning where the entries do not fit. -/
def setOid (cb : ReadRefAtCb) (noid : ObjectId) : ReadRefAtCb :=
  if ¬cb.ooid.isNull then
    { cb with
      oid := noid
      warnings := cb.warnings ++ if cb.ooid ≠ noid then [.gapAfter cb.date cb.tz] else [] }
  else if cb.date = cb.atTime then { cb with oid := noid }
  else { cb with warnings := cb.warnings ++ if noid ≠ cb.oid then [.unexpectedlyEnded cb.date cb.tz] else [] }

def record (cb : ReadRefAtCb) (entry : ReflogEntry) : ReadRefAtCb :=
  { cb with reccnt := cb.reccnt + 1, ooid := entry.ooid, noid := entry.noid }

def readRefAtEnt (cb : ReadRefAtCb) (entry : ReflogEntry) : ReadRefAtCb × Bool :=
  let cb := { cb with tz := entry.tz, date := entry.timestamp }
  if entry.timestamp ≤ cb.atTime ∨ cb.cnt = 0 then
    let cb := cb.setReadRefCutoffs entry.timestamp entry.tz entry.message
    let cb := (cb.setOid entry.noid).record entry
    ({ cb with foundIt := true }, true)
  else
    let cb := cb.record entry
    (if 0 < cb.cnt then { cb with cnt := cb.cnt - 1 } else cb, false)

def readRefAtEntOldest (cb : ReadRefAtCb) (entry : ReflogEntry) : ReadRefAtCb × Bool :=
  let cb := { cb.setReadRefCutoffs entry.timestamp entry.tz entry.message with oid := entry.ooid }
  (if cb.atTime ≠ 0 ∧ cb.oid.isNull then { cb with oid := entry.noid } else cb, true)

end ReadRefAtCb

def forEachReflogEnt (fn : ReadRefAtCb → ReflogEntry → ReadRefAtCb × Bool) :
    List ReflogEntry → ReadRefAtCb → ReadRefAtCb
  | [], cb => cb
  | entry :: entries, cb =>
    match fn cb entry with
    | (cb, true) => cb
    | (cb, false) => forEachReflogEnt fn entries cb

/-- `read_ref_at`: the result and what is left in the callback data; `none` stands for an empty log, where the
program ends. -/
def readRefAt (entries : List ReflogEntry) (atTime : Nat) (cnt : Int) (oid : ObjectId) : Option (Int × ReadRefAtCb) :=
  let cb : ReadRefAtCb := {
    atTime := atTime, cnt := cnt, reccnt := 0, oid := oid, foundIt := false, ooid := zeroOid, noid := zeroOid, tz := 0,
    date := 0, msg := none, cutoffTime := none, cutoffTz := none, cutoffCnt := none, warnings := [] }
  let cb := forEachReflogEnt ReadRefAtCb.readRefAtEnt entries cb
  if cb.reccnt = 0 then
    if cnt = 0 then some (1, cb.setReadRefCutoffs 0 0 (text "empty reflog")) else none
  else if cb.foundIt then some (0, cb)
  else some (1, forEachReflogEnt ReadRefAtCb.readRefAtEntOldest entries.reverse cb)

lemma readRefAtEnt_pass {cb : ReadRefAtCb} {entry : ReflogEntry} (htime : cb.atTime < entry.timestamp) (hcnt : cb.cnt ≠ 0) :
    ∃ cb', cb.readRefAtEnt entry = (cb', false) ∧ cb'.atTime = cb.atTime ∧ cb'.oid = cb.oid ∧ cb'.ooid = entry.ooid ∧
      cb'.cnt = if 0 < cb.cnt then cb.cnt - 1 else cb.cnt := by
  have hgo : ¬(entry.timestamp ≤ cb.atTime ∨ cb.cnt = 0) := by
    rintro (hle | hzero)
    · omega
    · exact hcnt hzero
  by_cases hpos : 0 < cb.cnt <;>
    simp [ReadRefAtCb.readRefAtEnt, ReadRefAtCb.record, hgo, hpos]

lemma oid_setOid (cb : ReadRefAtCb) (noid : ObjectId) :
    (cb.setOid noid).oid = if cb.ooid.isNull ∧ cb.date ≠ cb.atTime then cb.oid else noid := by
  rw [ReadRefAtCb.setOid]
  by_cases hnull : cb.ooid.isNull = true
  · by_cases hdate : cb.date = cb.atTime <;> simp [hnull, hdate]
  · simp [hnull]

lemma readRefAtEnt_stop {cb : ReadRefAtCb} {entry : ReflogEntry} (hstop : entry.timestamp ≤ cb.atTime ∨ cb.cnt = 0) :
    ∃ cb', cb.readRefAtEnt entry = (cb', true) ∧ cb'.foundIt = true ∧ 0 < cb'.reccnt ∧
      cb'.oid = if cb.ooid.isNull ∧ entry.timestamp ≠ cb.atTime then cb.oid else entry.noid := by
  simp only [ReadRefAtCb.readRefAtEnt, if_pos hstop]
  refine ⟨_, rfl, rfl, Nat.succ_pos _, ?_⟩
  exact oid_setOid _ _

lemma forEachReflogEnt_eq (before : List ReflogEntry) (entry : ReflogEntry) (after : List ReflogEntry)
    (cb : ReadRefAtCb) (hbefore : ∀ e ∈ before, cb.atTime < e.timestamp)
    (hcnt : cb.cnt = -1 ∨ (before.length : Int) ≤ cb.cnt)
    (hentry : entry.timestamp ≤ cb.atTime ∨ cb.cnt = before.length) :
    ∃ final, forEachReflogEnt ReadRefAtCb.readRefAtEnt (before ++ entry :: after) cb = final ∧
      final.foundIt = true ∧ 0 < final.reccnt ∧
      final.oid = if ((before.getLast?.map ReflogEntry.ooid).getD cb.ooid).isNull ∧ entry.timestamp ≠ cb.atTime then cb.oid
        else entry.noid := by
  induction before generalizing cb with
  | nil =>
    obtain ⟨final, hfinal, hresult⟩ := @readRefAtEnt_stop cb entry (by simpa using hentry)
    rw [List.nil_append, forEachReflogEnt, hfinal]
    exact ⟨final, rfl, hresult⟩
  | cons first before ih =>
    rw [List.length_cons, Nat.cast_succ] at hcnt hentry
    obtain ⟨cb', hstep, htime, hoid, hooid, hcnt'⟩ :=
      readRefAtEnt_pass (hbefore first (by simp)) (show cb.cnt ≠ 0 by omega)
    rw [List.cons_append, forEachReflogEnt, hstep]
    obtain ⟨final, hfinal, hfound, hcount, hresult⟩ := ih cb' (by
      intro e he
      rw [htime]
      exact hbefore e (by simp [he])) (by split at hcnt' <;> omega) (by
      rw [htime]
      split at hcnt' <;> omega)
    refine ⟨final, hfinal, hfound, hcount, ?_⟩
    rw [hresult, htime, hoid, hooid, List.getLast?_cons]
    cases before.getLast? <;> rfl

lemma readRefAt_eq (before : List ReflogEntry) (entry : ReflogEntry) (after : List ReflogEntry) (atTime : Nat) (cnt : Int)
    (oid : ObjectId) (hbefore : ∀ e ∈ before, atTime < e.timestamp) (hcnt : cnt = -1 ∨ (before.length : Int) ≤ cnt)
    (hentry : entry.timestamp ≤ atTime ∨ cnt = before.length) :
    ∃ cb, readRefAt (before ++ entry :: after) atTime cnt oid = some (0, cb) ∧
      cb.oid = if (∀ e, before.getLast? = some e → e.ooid.isNull) ∧ entry.timestamp ≠ atTime then oid else entry.noid := by
  obtain ⟨final, hfinal, hfound, hcount, hresult⟩ := forEachReflogEnt_eq before entry after {
    atTime := atTime, cnt := cnt, reccnt := 0, oid := oid, foundIt := false, ooid := zeroOid, noid := zeroOid, tz := 0,
    date := 0, msg := none, cutoffTime := none, cutoffTz := none, cutoffCnt := none, warnings := [] }
    hbefore hcnt hentry
  refine ⟨final, ?_, ?_⟩
  · rw [readRefAt, hfinal, if_neg (by omega), if_pos hfound]
  · have hnull : ((before.getLast?.map ReflogEntry.ooid).getD zeroOid).isNull = true ↔
        ∀ e, before.getLast? = some e → e.ooid.isNull = true := by
      cases before.getLast? with
      | none => simpa using show zeroOid.isNull = true by decide
      | some e => simp
    rw [hresult]
    simp only [hnull]

/-- The lookup succeeds with this id, where the caller's object id is the newest one. -/
def Yields (newest : ReflogEntry) (older : List ReflogEntry) (atTime : Nat) (cnt : Int) (noid : ObjectId) : Prop :=
  ∃ cb, readRefAt (newest :: older) atTime cnt newest.noid = some (0, cb) ∧ cb.oid = noid

/-- The `j`-th newest entry gives its own id: it is the newest one, or the entry before it in the walk has an old
id, or it was made at the time that is looked up, or its id is the newest one anyway. -/
def KeepsId (newest : ReflogEntry) (older : List ReflogEntry) (atTime j : Nat) : Prop :=
  let entry := fun i => (newest :: older).getD i newest
  j = 0 ∨ (entry (j - 1)).ooid.isNull = false ∨ (entry j).timestamp = atTime ∨ (entry j).noid = newest.noid

/-- Where the walk to the `n`-th newest entry stops: an entry from the start of the epoch ends it. -/
def stopIndex (newest : ReflogEntry) (older : List ReflogEntry) (n : Nat) : Nat :=
  ((newest :: older).take n).findIdx (·.timestamp = 0)

lemma yields_iff {newest : ReflogEntry} {older : List ReflogEntry} {atTime j : Nat} {cnt : Int}
    (hj : j < (newest :: older).length) (hbefore : ∀ e ∈ (newest :: older).take j, atTime < e.timestamp)
    (hcnt : cnt = -1 ∨ (j : Int) ≤ cnt)
    (hentry : ((newest :: older).getD j newest).timestamp ≤ atTime ∨ cnt = j) (noid : ObjectId) :
    Yields newest older atTime cnt noid ↔
      noid = if (j = 0 ∨ ((newest :: older).getD (j - 1) newest).ooid.isNull) ∧
        ((newest :: older).getD j newest).timestamp ≠ atTime then newest.noid
      else ((newest :: older).getD j newest).noid := by
  have hlen : ((newest :: older).take j).length = j := List.length_take_of_le hj.le
  have hget : (newest :: older).getD j newest = (newest :: older)[j] := List.getD_eq_getElem _ _ hj
  have hsplit : (newest :: older).take j ++ (newest :: older)[j] :: (newest :: older).drop (j + 1) = newest :: older := by
    rw [← List.drop_eq_getElem_cons hj, List.take_append_drop]
  rw [hget] at hentry ⊢
  obtain ⟨cb, hcb, hoid⟩ := readRefAt_eq ((newest :: older).take j) (newest :: older)[j] ((newest :: older).drop (j + 1))
    atTime cnt newest.noid hbefore (by rwa [hlen]) (by rwa [hlen])
  rw [hsplit] at hcb
  have hlast : (∀ e, ((newest :: older).take j).getLast? = some e → e.ooid.isNull = true) ↔
      (j = 0 ∨ ((newest :: older).getD (j - 1) newest).ooid.isNull = true) := by
    rw [List.getLast?_eq_getElem?, hlen, List.getD_eq_getElem?_getD]
    cases j with
    | zero => simp
    | succ j =>
      rw [Nat.add_sub_cancel, List.getElem?_take_of_lt (by omega), List.getElem?_eq_getElem (by omega)]
      simp
  simp only [hlast] at hoid
  rw [← hoid, Yields]
  constructor
  · rintro ⟨cb', hcb', rfl⟩
    rw [hcb] at hcb'
    simp only [Option.some.injEq, Prod.mk.injEq, true_and] at hcb'
    rw [hcb']
  · rintro rfl
    exact ⟨cb, hcb, rfl⟩

lemma forall_mem_take_findIdx {entries : List ReflogEntry} {p : ReflogEntry → Bool} :
    ∀ e ∈ entries.take (entries.findIdx p), p e = false := by
  intro e he
  obtain ⟨i, hi, rfl⟩ := List.mem_iff_getElem.mp he
  rw [List.length_take, lt_min_iff] at hi
  rw [List.getElem_take]
  simpa using List.not_of_lt_findIdx hi.1

lemma keepsId_iff {newest : ReflogEntry} {older : List ReflogEntry} {atTime j : Nat} :
    (((newest :: older).getD j newest).noid = if (j = 0 ∨ ((newest :: older).getD (j - 1) newest).ooid.isNull) ∧
        ((newest :: older).getD j newest).timestamp ≠ atTime then newest.noid
      else ((newest :: older).getD j newest).noid) ↔ KeepsId newest older atTime j := by
  have hfirst : j = 0 → (newest :: older).getD j newest = newest := by rintro rfl; rfl
  simp only [KeepsId]
  revert hfirst
  generalize (newest :: older).getD j newest = entry
  generalize ((newest :: older).getD (j - 1) newest).ooid.isNull = null
  intro hfirst
  by_cases htime : entry.timestamp = atTime
  · simp [htime]
  · by_cases hzero : j = 0
    · simp [hfirst hzero, hzero]
    · cases null <;> simp [htime, hzero]

/-- A lookup by number gives the new id of the entry when no newer one ends the walk with another id and the entry
keeps its id; a lookup by time, when the entry found keeps its id. -/
theorem readRefAt_iff (newest : ReflogEntry) (older : List ReflogEntry) :
    (∀ n, n < (newest :: older).length →
      (Yields newest older 0 n ((newest :: older).getD n newest).noid ↔
        ((newest :: older).getD n newest).noid = ((newest :: older).getD (stopIndex newest older n) newest).noid ∧
          KeepsId newest older 0 (stopIndex newest older n))) ∧
    ∀ T, ((newest :: older).getLastD newest).timestamp ≤ T →
      (Yields newest older T (-1) (((newest :: older).find? (·.timestamp ≤ T)).getD newest).noid ↔
        KeepsId newest older T ((newest :: older).findIdx (·.timestamp ≤ T))) := by
  constructor
  · intro n hn
    have hlen : ((newest :: older).take n).length = n := List.length_take_of_le hn.le
    have hle : stopIndex newest older n ≤ n := by
      have := @List.findIdx_le_length _ (·.timestamp = 0) ((newest :: older).take n)
      rwa [hlen] at this
    have hbefore : ∀ e ∈ (newest :: older).take (stopIndex newest older n), 0 < e.timestamp := by
      intro e he
      have hmem : e ∈ ((newest :: older).take n).take (stopIndex newest older n) := by
        rwa [List.take_take, Nat.min_eq_left hle]
      have := forall_mem_take_findIdx e hmem
      simp only [decide_eq_false_iff_not] at this
      omega
    have hfound : stopIndex newest older n < n →
        ((newest :: older).getD (stopIndex newest older n) newest).timestamp = 0 := by
      intro hlt
      have hget := @List.findIdx_getElem _ (·.timestamp = 0) ((newest :: older).take n)
        (w := by rw [hlen]; exact hlt)
      rw [List.getElem_take] at hget
      rw [List.getD_eq_getElem _ _ (by omega)]
      exact of_decide_eq_true hget
    rw [yields_iff (j := stopIndex newest older n) (by omega) hbefore (.inr (by omega)) (by
      rcases hle.lt_or_eq with hlt | heq
      · exact .inl (hfound hlt).le
      · exact .inr (by rw [heq]))]
    rcases hle.lt_or_eq with hlt | heq
    · rw [if_neg fun h => h.2 (hfound hlt)]
      exact ⟨fun h => ⟨h, .inr (.inr (.inl (hfound hlt)))⟩, fun h => h.1⟩
    · rw [heq, keepsId_iff]
      exact ⟨fun h => ⟨rfl, h⟩, fun h => h.2⟩
  · intro T hT
    have hexists : ∃ e ∈ newest :: older, decide (e.timestamp ≤ T) = true := by
      refine ⟨_, ?_, decide_eq_true hT⟩
      rw [List.getLastD_cons]
      exact List.getLastD_mem_cons
    have hj := List.findIdx_lt_length_of_exists hexists
    have hget := List.findIdx_getElem (w := hj)
    have hfind : ((newest :: older).find? (·.timestamp ≤ T)).getD newest =
        (newest :: older).getD ((newest :: older).findIdx (·.timestamp ≤ T)) newest := by
      rw [List.find?_eq_getElem?_findIdx, List.getD_eq_getElem?_getD]
    rw [hfind, yields_iff hj (fun e he => by simpa using forall_mem_take_findIdx e he) (.inl rfl) (.inl (by
      rw [List.getD_eq_getElem _ _ hj]
      simpa using hget)), keepsId_iff]

def initialEntry (byte : UInt8) (timestamp : Nat) : ReflogEntry :=
  ⟨zeroOid, ⟨List.replicate 32 byte⟩, timestamp, 0, text "commit (initial)"⟩

/-- Behind an entry with a null old id the id of the newest entry is left. -/
theorem readRefAt_initialEntry :
    ¬∀ (newest : ReflogEntry) (older : List ReflogEntry),
      (∀ n : Nat, n < (newest :: older).length → Yields newest older 0 n ((newest :: older).getD n newest).noid) ∧
      ∀ T, ((newest :: older).getLastD newest).timestamp ≤ T →
        Yields newest older T (-1) (((newest :: older).find? (·.timestamp ≤ T)).getD newest).noid := by
  intro hall
  obtain ⟨cb, hcb, hoid⟩ := (hall (initialEntry 2 20) [initialEntry 1 10]).1 1 (by decide)
  have hread : (readRefAt [initialEntry 2 20, initialEntry 1 10] 0 (1 : Nat) (initialEntry 2 20).noid).map
      (fun r => r.2.oid) = some (initialEntry 2 20).noid := by decide
  rw [hcb, Option.map_some, hoid] at hread
  exact absurd hread (by decide)

end GitCore.Refs
