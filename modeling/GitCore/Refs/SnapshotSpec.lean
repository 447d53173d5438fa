import GitCore.Refs.Snapshot

/-!
# The search in the packed refs

A record starts behind a line feed, unless the line is peeled. The pointers of the search are starts of
records, so that no byte outside the snapshot is read; in a sorted snapshot the search ends where the
record is or belongs.
-/

namespace GitCore.Refs

def RecordStart (snapshot : List UInt8) (p : Nat) : Prop :=
  0 < p ∧ snapshot[p - 1]? = some lf ∧ ∃ c, snapshot[p]? = some c ∧ c ≠ caret

variable {snapshot : List UInt8} {buf p q last : Nat}

lemma recordStart_succ_iff (hp : p + 1 < snapshot.length) :
    RecordStart snapshot (p + 1) ↔ snapshot[p] = lf ∧ snapshot[p + 1] ≠ caret := by
  have hget : snapshot[p]? = some snapshot[p] := List.getElem?_eq_getElem (by omega)
  unfold RecordStart
  simp only [Nat.add_sub_cancel, hget, List.getElem?_eq_getElem hp, Option.some_inj, exists_eq_left']
  simp

lemma findStartOfRecord_spec (hbuf : buf ≤ p) (hp : p < snapshot.length) :
    ∃ q, findStartOfRecord snapshot buf p = some q ∧ buf ≤ q ∧ q ≤ p ∧ (q = buf ∨ RecordStart snapshot q) ∧
      ∀ r, q < r → r ≤ p → ¬RecordStart snapshot r := by
  induction p with
  | zero =>
    obtain rfl : buf = 0 := by omega
    exact ⟨0, rfl, le_rfl, le_rfl, .inl rfl, fun r hlow hhigh => by omega⟩
  | succ p ih =>
    rw [findStartOfRecord]
    split_ifs with hend
    · exact ⟨p + 1, rfl, by omega, le_rfl, .inl (by omega), fun r hlow hhigh => by omega⟩
    · -- the start is searched before `p + 1`
      have hbefore : ¬RecordStart snapshot (p + 1) → ∃ q, findStartOfRecord snapshot buf p = some q ∧ buf ≤ q ∧
          q ≤ p + 1 ∧ (q = buf ∨ RecordStart snapshot q) ∧ ∀ r, q < r → r ≤ p + 1 → ¬RecordStart snapshot r := by
        intro hno
        obtain ⟨q, hq, hlow, hhigh, hstart, hlast⟩ := ih (by omega) (by omega)
        refine ⟨q, hq, hlow, by omega, hstart, fun r hr hr' => ?_⟩
        obtain rfl | hr' := Nat.eq_or_lt_of_le hr'
        · exact hno
        · exact hlast r hr (by omega)
      have hget : snapshot[p]? = some snapshot[p] := List.getElem?_eq_getElem (by omega)
      have hget' : snapshot[p + 1]? = some snapshot[p + 1] := List.getElem?_eq_getElem (by omega)
      rw [hget, hget']
      dsimp only
      split_ifs with hlf hcaret
      · exact hbefore fun h => hlf ((recordStart_succ_iff hp).mp h).1
      · exact hbefore fun h => ((recordStart_succ_iff hp).mp h).2 hcaret
      · exact ⟨p + 1, rfl, by omega, le_rfl, .inr ((recordStart_succ_iff hp).mpr ⟨not_not.mp hlf, hcaret⟩),
          fun r hlow hhigh => by omega⟩

lemma findEndOfRecord_spec (hp : p < last) (hlast : last ≤ snapshot.length) :
    ∃ q, findEndOfRecord snapshot p last = some q ∧ p < q ∧ q ≤ last ∧ (q = last ∨ RecordStart snapshot q) ∧
      ∀ r, p < r → r < q → ¬RecordStart snapshot r := by
  induction hn : last - p using Nat.strong_induction_on generalizing p with
  | _ n ih =>
    rw [findEndOfRecord]
    split_ifs with hend
    · have hbehind : ¬RecordStart snapshot (p + 1) → ∃ q, findEndOfRecord snapshot (p + 1) last = some q ∧ p < q ∧
          q ≤ last ∧ (q = last ∨ RecordStart snapshot q) ∧ ∀ r, p < r → r < q → ¬RecordStart snapshot r := by
        intro hno
        obtain ⟨q, hq, hlow, hhigh, hstart, hfirst⟩ := ih (last - (p + 1)) (by omega) hend rfl
        refine ⟨q, hq, by omega, hhigh, hstart, fun r hr hr' => ?_⟩
        obtain rfl | hr := Nat.eq_or_lt_of_le hr
        · exact hno
        · exact hfirst r hr hr'
      have hget : snapshot[p]? = some snapshot[p] := List.getElem?_eq_getElem (by omega)
      have hget' : snapshot[p + 1]? = some snapshot[p + 1] := List.getElem?_eq_getElem (by omega)
      rw [hget, hget']
      dsimp only
      have hp' : p + 1 < snapshot.length := by omega
      split_ifs with hlf hcaret
      · exact hbehind fun h => hlf ((recordStart_succ_iff hp').mp h).1
      · exact hbehind fun h => ((recordStart_succ_iff hp').mp h).2 hcaret
      · exact ⟨p + 1, rfl, by omega, by omega, .inr ((recordStart_succ_iff hp').mpr ⟨not_not.mp hlf, hcaret⟩),
          fun r hlow hhigh => by omega⟩
    · exact ⟨p + 1, rfl, by omega, by omega, .inl (by omega), fun r hlow hhigh => by omega⟩

lemma cmpRecordLoop_isSome (start : Bool) (line refname : List UInt8) :
    (cmpRecordLoop start (line ++ [lf]) refname).isSome := by
  induction line generalizing refname with
  | nil => simp [cmpRecordLoop]
  | cons c line ih =>
    rw [List.cons_append, cmpRecordLoop.eq_def]
    dsimp only
    by_cases hc : c = lf
    · rw [if_pos hc]
      rfl
    · rw [if_neg hc]
      cases refname with
      | nil => rfl
      | cons d refname =>
        dsimp only
        split_ifs
        · rfl
        · rfl
        · exact ih refname

/-- What `verify_buffer_safe` makes sure of: the last byte is a line feed, and every record is long
enough to have a name. -/
structure BufferSafe (hexsz : Nat) (snapshot : List UInt8) : Prop where
  terminated : snapshot ≠ [] → ∃ front, snapshot = front ++ [lf]
  long : ∀ p, p = 0 ∨ RecordStart snapshot p → p < snapshot.length → p + hexsz + 2 ≤ snapshot.length

lemma verifyBufferSafe_spec (hexsz : Nat) (snapshot : List UInt8) :
    ∃ safe, verifyBufferSafe hexsz snapshot = some safe ∧ (safe = true → BufferSafe hexsz snapshot) := by
  unfold verifyBufferSafe
  split_ifs with hempty
  · exact ⟨true, rfl, fun _ => ⟨fun h => absurd hempty h, fun p _ hp => by simp [hempty] at hp⟩⟩
  · have hlength : 0 < snapshot.length := List.length_pos_iff.mpr hempty
    obtain ⟨lastLine, hfind, -, hle, -, hlast⟩ :=
      findStartOfRecord_spec (Nat.zero_le (snapshot.length - 1)) (by omega : snapshot.length - 1 < snapshot.length)
    have hget : snapshot[snapshot.length - 1]? = some snapshot[snapshot.length - 1] :=
      List.getElem?_eq_getElem (by omega)
    rw [hfind, hget]
    refine ⟨_, rfl, fun hsafe => ?_⟩
    obtain ⟨hlf, hlong⟩ := of_decide_eq_true hsafe
    refine ⟨fun _ => ⟨snapshot.take (snapshot.length - 1), ?_⟩, fun p hp hlt => ?_⟩
    · rw [← hlf, ← List.getLast_eq_getElem hempty, ← List.dropLast_eq_take, List.dropLast_append_getLast]
    · have hbefore : p ≤ lastLine := by
        obtain rfl | hp := hp
        · exact Nat.zero_le _
        · by_contra hbehind
          exact hlast p (by omega) (by omega) hp
      omega

lemma cmpRecordToRefname_isSome {hexsz : Nat} (h : BufferSafe hexsz snapshot)
    (hp : p = 0 ∨ RecordStart snapshot p) (hlt : p < snapshot.length) (refname : List UInt8) (start : Bool) :
    (cmpRecordToRefname hexsz snapshot p refname start).isSome := by
  have hlong := h.long p hp hlt
  obtain ⟨front, rfl⟩ := h.terminated (List.ne_nil_of_length_pos (by omega))
  rw [List.length_append, List.length_singleton] at hlong
  rw [cmpRecordToRefname, List.drop_append_of_le_length (by omega)]
  exact cmpRecordLoop_isSome start _ refname

lemma findReferenceLoop_step {hexsz lo hi record next : Nat} {refname : List UInt8} {start : Bool} {cmp : Int}
    (hlt : lo < hi) (hrecord : findStartOfRecord snapshot lo (lo + (hi - lo) / 2) = some record)
    (hcmp : cmpRecordToRefname hexsz snapshot record refname start = some cmp)
    (hnext : findEndOfRecord snapshot (lo + (hi - lo) / 2) hi = some next) :
    findReferenceLoop hexsz snapshot refname start lo hi =
      if cmp < 0 then findReferenceLoop hexsz snapshot refname start next hi
      else if 0 < cmp then findReferenceLoop hexsz snapshot refname start lo record
      else some (record, true) := by
  rw [findReferenceLoop, if_pos hlt]
  dsimp only
  split
  · rename_i hnone
    rw [hrecord] at hnone
    cases hnone
  · rename_i found hfound
    obtain rfl : record = found := Option.some.inj (hrecord.symm.trans hfound)
    rw [hcmp]
    dsimp only
    split_ifs
    · split
      · rename_i hnone
        rw [hnext] at hnone
        cases hnone
      · rename_i found hfound
        obtain rfl : next = found := Option.some.inj (hnext.symm.trans hfound)
        rfl
    · rfl
    · rfl

lemma findReferenceLoop_isSome {hexsz : Nat} (h : BufferSafe hexsz snapshot) (refname : List UInt8) (start : Bool)
    {lo hi : Nat} (hle : lo ≤ hi) (hhi : hi ≤ snapshot.length) (hlo : lo = hi ∨ lo = 0 ∨ RecordStart snapshot lo) :
    (findReferenceLoop hexsz snapshot refname start lo hi).isSome := by
  induction hn : hi - lo using Nat.strong_induction_on generalizing lo hi with
  | _ n ih =>
    by_cases hlt : lo < hi
    · obtain ⟨record, hrecord, hlow, hhigh, hstart, -⟩ :=
        @findStartOfRecord_spec snapshot _ _ (by omega : lo ≤ lo + (hi - lo) / 2) (by omega)
      obtain ⟨next, hnext, hlow', hhigh', hstart', -⟩ :=
        @findEndOfRecord_spec snapshot _ _ (by omega : lo + (hi - lo) / 2 < hi) hhi
      have hrecordStart : record = 0 ∨ RecordStart snapshot record := by
        obtain rfl | hstart := hstart
        · exact hlo.resolve_left hlt.ne
        · exact .inr hstart
      obtain ⟨cmp, hcmp⟩ := Option.isSome_iff_exists.mp
        (cmpRecordToRefname_isSome h hrecordStart (by omega) refname start)
      rw [findReferenceLoop_step hlt hrecord hcmp hnext]
      split_ifs
      · exact ih (hi - next) (by omega) hhigh' hhi (hstart'.imp id .inr) rfl
      · exact ih (record - lo) (by omega) hlow (by omega) (.inr (hlo.resolve_left hlt.ne)) rfl
      · rfl
    · rw [findReferenceLoop, if_neg hlt]
      rfl

end GitCore.Refs
