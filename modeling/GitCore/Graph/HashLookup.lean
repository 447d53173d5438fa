import GitCore.Graph.Lookup
import Mathlib.Data.List.GetD

/-!
# Positions in sorted tables

`oid_pos` and `bsearch_hash` of `hash-lookup.c` with what they return for a name that is not in the table. Sizes are 64
bits wide, an `int` has 32 bits, and each read of the table is checked.
-/

namespace GitCore.HashLookup

open GitCore.Graph (ObjectId oidcmp take2 IsTable take2_drop take2_le_of_le firstByte firstByte_le_of_le)

inductive LookupError
  | overflow
  | binarySearch
  | outside
  deriving DecidableEq

def toInt (n : Nat) : Int := Int.bmod n (2 ^ 32)

def indexPosToInsertPos (pos : Nat) : Except LookupError Int :=
  if pos > 2 ^ 31 - 1 then .error .overflow else .ok (-1 - pos)

def fn (table : List ObjectId) (i : Nat) : Except LookupError ObjectId :=
  match table[i]? with
  | some oid => .ok oid
  | none => .error .outside

/-- `(nr - 1) * (miv - lov) / (hiv - lov)` -/
def interpolate (nr miv lov hiv : Nat) : Nat := (nr - 1) * (miv - lov) % 2 ^ 64 / (hiv - lov)

section

variable (rawsz : Nat) (table : List ObjectId) (oid : ObjectId)

def firstProbe (hpos : 0 < table.length) (ofs : Nat) : Except LookupError (Int ⊕ {mi // mi < table.length}) :=
  if ofs < rawsz - 2 then do
    let lov := take2 (← fn table 0) ofs
    let hiv := take2 (← fn table (table.length - 1)) ofs
    let miv := take2 oid ofs
    if miv < lov then return .inl (-1)
    else if hiv < miv then return .inl (← indexPosToInsertPos table.length)
    else if lov ≠ hiv then
      if hmi : interpolate table.length miv lov hiv < table.length then return .inr ⟨_, hmi⟩
      else throw .binarySearch
    else firstProbe hpos (ofs + 2)
  else return .inr ⟨0, hpos⟩
termination_by rawsz - 2 - ofs

def probeLoop (lo hi mi : Nat) (_h : lo ≤ mi ∧ mi < hi) : Except LookupError Int := do
  let cmp := oidcmp (← fn table mi) oid
  if cmp = 0 then return toInt mi
  else if cmp > 0 then
    if hlt : lo < mi then probeLoop lo mi (lo + (mi - lo) / 2) (by omega) else indexPosToInsertPos lo
  else if hlt : mi + 1 < hi then probeLoop (mi + 1) hi (mi + 1 + (hi - (mi + 1)) / 2) (by omega)
  else indexPosToInsertPos (mi + 1)
termination_by hi - lo

def oidPos : Except LookupError Int :=
  if hpos : 0 < table.length then do
    match ← (if table.length ≠ 1 then firstProbe rawsz table oid hpos 0 else return .inr ⟨0, hpos⟩) with
    | .inl pos => return pos
    | .inr mi => probeLoop table oid 0 table.length mi ⟨Nat.zero_le _, mi.2⟩
  else return -1

/-- The loop of `bsearch_hash`: whether the name is found, and `result`. -/
def bsearchLoop (lo hi : Nat) : Bool × Nat :=
  if lo < hi then
    let mi := lo + (hi - lo) / 2
    let cmp := oidcmp (table.getD mi []) oid
    if cmp = 0 then (true, mi)
    else if cmp > 0 then bsearchLoop lo mi
    else bsearchLoop (mi + 1) hi
  else (false, lo)
termination_by hi - lo

def bsearchHash (fanout : Nat → Nat) : Bool × Nat :=
  let first := (oid.headD 0).toNat
  bsearchLoop table oid (if first = 0 then 0 else fanout (first - 1)) (fanout first)

def insertPos : Nat := table.findIdx fun x => oid ≤ x

def resultAt : Except LookupError Int :=
  if oid ∈ table then .ok (toInt (insertPos table oid)) else indexPosToInsertPos (insertPos table oid)

end

variable {rawsz : Nat} {table : List ObjectId} {oid : ObjectId}

lemma insertPos_le : insertPos table oid ≤ table.length := List.findIdx_le_length

lemma lt_of_lt_insertPos {i : Nat} (hi : i < table.length) (hlt : i < insertPos table oid) : table[i] < oid := by
  have h := List.not_of_lt_findIdx hlt
  simpa using h

lemma le_of_insertPos_le (h : IsTable rawsz table) {i : Nat} (hi : i < table.length) (hle : insertPos table oid ≤ i) :
    oid ≤ table[i] := by
  have hpos : insertPos table oid < table.length := hle.trans_lt hi
  have hat : oid ≤ table[insertPos table oid] := by
    have hfound := List.findIdx_getElem (w := hpos)
    exact of_decide_eq_true hfound
  obtain heq | hlt := Nat.eq_or_lt_of_le hle
  · simpa only [heq] using hat
  · exact hat.trans (List.pairwise_iff_getElem.mp h.sorted _ _ hpos hi hlt).le

lemma insertPos_eq (h : IsTable rawsz table) {pos : Nat} (hle : pos ≤ table.length)
    (hbefore : ∀ (hlt : pos - 1 < table.length), 0 < pos → table[pos - 1] < oid)
    (hbehind : ∀ (hlt : pos < table.length), oid ≤ table[pos]) : insertPos table oid = pos := by
  obtain hlt | heq | hgt := lt_trichotomy (insertPos table oid) pos
  · have hle' : oid ≤ table[pos - 1] := le_of_insertPos_le h (by omega) (by omega)
    exact absurd (hbefore (by omega) (by omega)) (not_lt.mpr hle')
  · exact heq
  · have hlen : insertPos table oid ≤ table.length := insertPos_le
    exact absurd (lt_of_lt_insertPos (by omega) hgt) (not_lt.mpr (hbehind (by omega)))

lemma insertPos_of_getElem (h : IsTable rawsz table) {i : Nat} (hi : i < table.length) (heq : table[i] = oid) :
    insertPos table oid = i :=
  insertPos_eq h hi.le (fun hlt hpos => heq ▸ List.pairwise_iff_getElem.mp h.sorted _ _ hlt hi (by omega)) fun _ => heq.ge

lemma getElem?_insertPos (h : IsTable rawsz table) : table[insertPos table oid]? = some oid ↔ oid ∈ table := by
  refine ⟨List.mem_of_getElem?, fun hmem => ?_⟩
  obtain ⟨i, hi, rfl⟩ := List.getElem_of_mem hmem
  rw [insertPos_of_getElem h hi rfl, List.getElem?_eq_getElem hi]

lemma oidcmp_pos {a b : ObjectId} : oidcmp a b > 0 ↔ b < a := by
  rw [oidcmp]
  split_ifs with hab hba
  · exact ⟨fun h => absurd h (by decide), fun h => absurd h hab.not_gt⟩
  · exact ⟨fun _ => hba, fun _ => by decide⟩
  · exact ⟨fun h => absurd h (by decide), fun h => absurd h hba⟩

lemma oidcmp_eq_zero {a b : ObjectId} : oidcmp a b = 0 ↔ a = b := by
  rw [oidcmp]
  split_ifs with hab hba
  · exact ⟨fun h => absurd h (by decide), fun h => absurd h hab.ne⟩
  · exact ⟨fun h => absurd h (by decide), fun h => absurd h hba.ne'⟩
  · exact ⟨fun _ => le_antisymm (not_lt.mp hba) (not_lt.mp hab), fun _ => rfl⟩

lemma fn_eq {i : Nat} (hi : i < table.length) : fn table i = .ok table[i] := by
  rw [fn, List.getElem?_eq_getElem hi]

structure Between (table : List ObjectId) (oid : ObjectId) (lo hi : Nat) : Prop where
  lo_le : lo ≤ insertPos table oid
  le_hi : insertPos table oid ≤ hi
  hi_le : hi ≤ table.length
  behind : ∀ hlt : hi < table.length, oid < table[hi]

lemma Between.notMem (h : IsTable rawsz table) {lo : Nat} (hb : Between table oid lo lo) : oid ∉ table := by
  rw [← getElem?_insertPos h, show insertPos table oid = lo from le_antisymm hb.le_hi hb.lo_le]
  intro hget
  obtain ⟨hlt, heq⟩ := List.getElem?_eq_some_iff.mp hget
  exact absurd heq (hb.behind hlt).ne'

lemma Between.left (h : IsTable rawsz table) {lo hi mi : Nat} (hb : Between table oid lo hi) (hlen : mi < table.length)
    (hmi : lo ≤ mi) (hlt : oid < table[mi]) : Between table oid lo mi := by
  refine ⟨hb.lo_le, ?_, hlen.le, fun _ => hlt⟩
  by_contra hgt
  exact absurd (lt_of_lt_insertPos hlen (not_le.mp hgt)) hlt.not_gt

lemma Between.right (h : IsTable rawsz table) {lo hi mi : Nat} (hb : Between table oid lo hi) (hlen : mi < table.length)
    (hlt : table[mi] < oid) : Between table oid (mi + 1) hi := by
  refine ⟨?_, hb.le_hi, hb.hi_le, hb.behind⟩
  by_contra hgt
  exact absurd (le_of_insertPos_le h hlen (by omega)) (not_le.mpr hlt)

lemma probeLoop_eq (h : IsTable rawsz table) {lo hi mi : Nat} (hmi : lo ≤ mi ∧ mi < hi)
    (hb : Between table oid lo hi) :
    probeLoop table oid lo hi mi hmi = resultAt table oid := by
  induction hn : hi - lo using Nat.strong_induction_on generalizing lo hi mi with
  | _ n ih =>
    have hlen : mi < table.length := hmi.2.trans_le hb.hi_le
    rw [probeLoop, fn_eq hlen]
    change (if oidcmp table[mi] oid = 0 then Except.ok (toInt mi) else _) = _
    split_ifs with hzero hpos hlt hlt
    · rw [oidcmp_eq_zero] at hzero
      rw [resultAt, if_pos (hzero ▸ List.getElem_mem hlen), insertPos_of_getElem h hlen hzero]
    · exact ih (mi - lo) (by omega) _ (hb.left h hlen hmi.1 (oidcmp_pos.mp hpos)) rfl
    · have hend := hb.left h hlen hmi.1 (oidcmp_pos.mp hpos)
      obtain rfl : lo = mi := by omega
      rw [resultAt, if_neg (hend.notMem h), le_antisymm hend.le_hi hend.lo_le]
    all_goals
      have hless : table[mi] < oid := by
        rw [oidcmp_pos, not_lt] at hpos
        exact lt_of_le_of_ne hpos (fun he => hzero (oidcmp_eq_zero.mpr he))
      have hright := hb.right h hlen hless
    · exact ih (hi - (mi + 1)) (by omega) _ hright rfl
    · obtain rfl : hi = mi + 1 := by omega
      rw [resultAt, if_neg (hright.notMem h), le_antisymm hright.le_hi hright.lo_le]

lemma getD_mem {i : Nat} (hi : i < table.length) : table.getD i [] ∈ table := by
  rw [List.getD_eq_getElem _ _ hi]
  exact List.getElem_mem hi

lemma insertPos_first (h : IsTable rawsz table) (hpos : 0 < table.length) (hlt : oid < table.getD 0 []) :
    insertPos table oid = 0 ∧ oid ∉ table := by
  rw [List.getD_eq_getElem _ _ hpos] at hlt
  have heq : insertPos table oid = 0 :=
    insertPos_eq h (Nat.zero_le _) (fun _ h0 => absurd h0 (lt_irrefl 0)) fun _ => hlt.le
  refine ⟨heq, fun hmem => ?_⟩
  have hget := (getElem?_insertPos h).mpr hmem
  rw [heq, List.getElem?_eq_getElem hpos, Option.some_inj] at hget
  exact hlt.ne' hget

lemma insertPos_last (h : IsTable rawsz table) (hpos : 0 < table.length)
    (hlt : table.getD (table.length - 1) [] < oid) : insertPos table oid = table.length ∧ oid ∉ table := by
  rw [List.getD_eq_getElem _ _ (by omega)] at hlt
  have heq : insertPos table oid = table.length :=
    insertPos_eq h le_rfl (fun _ _ => hlt) fun hlt => absurd hlt (lt_irrefl _)
  refine ⟨heq, fun hmem => ?_⟩
  have hget := (getElem?_insertPos h).mpr hmem
  rw [heq, List.getElem?_eq_none le_rfl] at hget
  cases hget

lemma take2_lt (oid : ObjectId) (ofs : Nat) : take2 oid ofs < 65536 := by
  have hhigh := (oid.getD ofs 0).toNat_lt
  have hlow := (oid.getD (ofs + 1) 0).toNat_lt
  rw [take2]
  omega

lemma interpolate_lt {nr miv lov hiv : Nat} (hlen : nr ≤ 2 ^ 48) (hpos : 0 < nr) (hmiv : miv < 65536) (hle : miv ≤ hiv)
    (hlt : lov < hiv) : interpolate nr miv lov hiv < nr := by
  have hproduct : (nr - 1) * (miv - lov) < 2 ^ 64 := by
    calc (nr - 1) * (miv - lov) ≤ (nr - 1) * 65536 := Nat.mul_le_mul_left _ (by omega)
      _ < 2 ^ 64 := by omega
  rw [interpolate, Nat.mod_eq_of_lt hproduct]
  calc (nr - 1) * (miv - lov) / (hiv - lov)
      ≤ (nr - 1) * (hiv - lov) / (hiv - lov) := Nat.div_le_div_right (Nat.mul_le_mul_left _ (by omega))
    _ = nr - 1 := Nat.mul_div_cancel _ (by omega)
    _ < nr := by omega

lemma firstProbe_spec (h : IsTable rawsz table) (hlen : table.length ≤ 2 ^ 48) (hoid : oid.length = rawsz)
    (hpos : 0 < table.length) (ofs : Nat)
    (hlow : table.getD 0 [] ≤ oid → (table.getD 0 []).drop ofs ≤ oid.drop ofs)
    (hhigh : oid ≤ table.getD (table.length - 1) [] → oid.drop ofs ≤ (table.getD (table.length - 1) []).drop ofs) :
    (∃ mi, firstProbe rawsz table oid hpos ofs = .ok (.inr mi)) ∨
      oid ∉ table ∧
        firstProbe rawsz table oid hpos ofs = (indexPosToInsertPos (insertPos table oid)).map .inl := by
  have hfirst := h.length_eq _ (getD_mem hpos)
  have hlast := h.length_eq _ (getD_mem (show table.length - 1 < table.length by omega))
  induction hn : rawsz - 2 - ofs using Nat.strong_induction_on generalizing ofs with
  | _ n ih =>
    rw [firstProbe]
    by_cases hofs : ofs < rawsz - 2
    · rw [if_pos hofs, fn_eq hpos, fn_eq (show table.length - 1 < table.length by omega),
        ← List.getD_eq_getElem _ [] hpos, ← List.getD_eq_getElem _ [] (show table.length - 1 < table.length by omega)]
      simp only [bind, Except.bind, pure, Except.pure]
      set first := table.getD 0 []
      set last := table.getD (table.length - 1) []
      have hword {x y : ObjectId} (hxy : x.drop ofs ≤ y.drop ofs) (hx : x.length = rawsz) (hy : y.length = rawsz) :
          take2 x ofs ≤ take2 y ofs ∧ (take2 x ofs = take2 y ofs → x.drop (ofs + 2) ≤ y.drop (ofs + 2)) := by
        rw [take2_drop x, take2_drop y, ← List.drop_drop, ← List.drop_drop]
        exact take2_le_of_le (by simp only [List.length_drop]; omega) hxy (by simp only [List.length_drop]; omega)
      split_ifs with hbelow habove hends hmi
      · have hlt : oid < first := not_le.mp fun hle => absurd (hword (hlow hle) hfirst hoid).1 (by omega)
        obtain ⟨heq, hnot⟩ := insertPos_first h hpos hlt
        exact .inr ⟨hnot, by rw [heq]; rfl⟩
      · have hlt : last < oid := not_le.mp fun hle => absurd (hword (hhigh hle) hoid hlast).1 (by omega)
        obtain ⟨heq, hnot⟩ := insertPos_last h hpos hlt
        refine .inr ⟨hnot, ?_⟩
        rw [heq]
        cases indexPosToInsertPos table.length <;> rfl
      · exact .inl ⟨_, rfl⟩
      · exact absurd (interpolate_lt hlen hpos (take2_lt oid ofs) (by omega) (by omega)) hmi
      · exact ih (rawsz - 2 - (ofs + 2)) (by omega) (ofs + 2)
          (fun hle => (hword (hlow hle) hfirst hoid).2 (by omega))
          (fun hle => (hword (hhigh hle) hoid hlast).2 (by omega)) rfl
    · rw [if_neg hofs]
      exact .inl ⟨_, rfl⟩

lemma oidPos_eq (h : IsTable rawsz table) (hlen : table.length ≤ 2 ^ 48) (hoid : oid.length = rawsz) :
    oidPos rawsz table oid = resultAt table oid := by
  rw [oidPos]
  split_ifs with hpos hone
  · obtain ⟨mi, hprobe⟩ | ⟨hnot, hprobe⟩ := firstProbe_spec h hlen hoid hpos 0 (fun hle => hle) (fun hle => hle)
    · rw [hprobe]
      exact probeLoop_eq h _ ⟨Nat.zero_le _, insertPos_le, le_rfl, fun hlt => absurd hlt (lt_irrefl _)⟩
    · rw [hprobe, resultAt, if_neg hnot]
      cases indexPosToInsertPos (insertPos table oid) <;> rfl
  · exact probeLoop_eq h _ ⟨Nat.zero_le _, insertPos_le, le_rfl, fun hlt => absurd hlt (lt_irrefl _)⟩
  · rw [resultAt, List.length_eq_zero_iff.mp (Nat.eq_zero_of_not_pos hpos)]
    rfl

lemma toInt_eq {n : Nat} (hn : n ≤ 2 ^ 31 - 1) : toInt n = n :=
  Int.bmod_eq_of_le (by omega) (by omega)

def IsFanout (table : List ObjectId) (fanout : Nat → Nat) : Prop :=
  ∀ b < 256, fanout b = table.countP fun x => firstByte x ≤ b

lemma lt_countP_iff (hsorted : table.Pairwise (· < ·)) (b : Nat) {i : Nat} (hi : i < table.length) :
    i < table.countP (fun x => firstByte x ≤ b) ↔ firstByte table[i] ≤ b := by
  induction table generalizing i with
  | nil => exact absurd hi (by simp)
  | cons x xs ih =>
    obtain ⟨hbefore, hrest⟩ := List.pairwise_cons.mp hsorted
    by_cases hx : firstByte x ≤ b
    · rw [List.countP_cons_of_pos (by simpa using hx)]
      cases i with
      | zero => simpa using hx
      | succ i => simpa using ih hrest (by simpa using hi)
    · have hnone : ∀ y ∈ xs, ¬firstByte y ≤ b := fun y hy => by
        have := firstByte_le_of_le (hbefore y hy).le
        omega
      rw [List.countP_cons_of_neg (by simpa using hx), List.countP_eq_zero.mpr (by simpa using hnone)]
      cases i with
      | zero => simpa using hx
      | succ i => simpa using hnone _ (List.getElem_mem _)

lemma between_fanout (h : IsTable rawsz table) {fanout : Nat → Nat} (hf : IsFanout table fanout) :
    Between table oid (if firstByte oid = 0 then 0 else fanout (firstByte oid - 1)) (fanout (firstByte oid)) := by
  have hbyte : firstByte oid < 256 := (oid.headD 0).toNat_lt
  have hlen : insertPos table oid ≤ table.length := insertPos_le
  have hhi := hf _ hbyte
  have hcount := List.countP_le_length (p := fun x => decide (firstByte x ≤ firstByte oid)) (l := table)
  refine ⟨?_, ?_, hhi ▸ hcount, fun hlt => ?_⟩
  · split_ifs with hzero
    · exact Nat.zero_le _
    · by_contra hgt
      rw [hf _ (by omega)] at hgt
      have hcount' := List.countP_le_length (p := fun x => decide (firstByte x ≤ firstByte oid - 1)) (l := table)
      have hin : insertPos table oid < table.length := by omega
      have hfirst := (lt_countP_iff h.sorted (firstByte oid - 1) hin).mp (by omega)
      have := firstByte_le_of_le (le_of_insertPos_le h hin le_rfl)
      omega
  · by_contra hgt
    have hin : fanout (firstByte oid) < table.length := by omega
    have hfirst := (lt_countP_iff h.sorted (firstByte oid) hin).not.mp (by omega)
    exact hfirst (firstByte_le_of_le (lt_of_lt_insertPos hin (by omega)).le)
  · by_contra hge
    exact (lt_countP_iff h.sorted (firstByte oid) hlt).not.mp (by omega) (firstByte_le_of_le (not_lt.mp hge))

lemma bsearchLoop_eq (h : IsTable rawsz table) {lo hi : Nat} (hb : Between table oid lo hi) :
    bsearchLoop table oid lo hi = (decide (oid ∈ table), insertPos table oid) := by
  induction hn : hi - lo using Nat.strong_induction_on generalizing lo hi with
  | _ n ih =>
    rw [bsearchLoop]
    split_ifs with hlt
    · have hlen : lo + (hi - lo) / 2 < table.length := by
        have := hb.hi_le
        omega
      have hmi : lo ≤ lo + (hi - lo) / 2 := Nat.le_add_right _ _
      have hmi' : lo + (hi - lo) / 2 < hi := by omega
      generalize lo + (hi - lo) / 2 = mi at *
      simp only [List.getD_eq_getElem _ _ hlen]
      split_ifs with hzero hgt
      · rw [oidcmp_eq_zero] at hzero
        rw [decide_eq_true (hzero ▸ List.getElem_mem hlen), insertPos_of_getElem h hlen hzero]
      · exact ih (mi - lo) (by omega) (hb.left h hlen hmi (oidcmp_pos.mp hgt)) rfl
      · rw [oidcmp_pos, not_lt] at hgt
        have hless : table[mi] < oid := lt_of_le_of_ne hgt fun he => hzero (oidcmp_eq_zero.mpr he)
        exact ih (hi - (mi + 1)) (by omega) (hb.right h hlen hless) rfl
    · obtain rfl : lo = hi := le_antisymm (hb.lo_le.trans hb.le_hi) (not_lt.mp hlt)
      rw [decide_eq_false (hb.notMem h), le_antisymm hb.le_hi hb.lo_le]

/-- In a table of up to 2^48 names the position of each name is found. What is above the range of an `int` is not
returned as a position, and no name outside of the table is read. -/
theorem oidPos_eq_insertPos (h : IsTable rawsz table) (hlen : table.length ≤ 2 ^ 48) (hoid : oid.length = rawsz) :
    ∃ pos ≤ table.length, (∀ x ∈ table.take pos, x < oid) ∧ (∀ x ∈ table.drop pos, oid ≤ x) ∧
      (oid ∈ table → table[pos]? = some oid ∧ (pos ≤ 2 ^ 31 - 1 → oidPos rawsz table oid = .ok pos)) ∧
      (oid ∉ table → oidPos rawsz table oid = if pos ≤ 2 ^ 31 - 1 then .ok (-1 - pos) else .error .overflow) ∧
      oidPos rawsz table oid ≠ .error .binarySearch ∧ oidPos rawsz table oid ≠ .error .outside ∧
      ∀ fanout, IsFanout table fanout → bsearchHash table oid fanout = (decide (oid ∈ table), pos) := by
  rw [oidPos_eq h hlen hoid, resultAt, indexPosToInsertPos]
  refine ⟨insertPos table oid, insertPos_le, fun x hx => ?_, fun x hx => ?_, fun hmem => ⟨(getElem?_insertPos h).mpr hmem,
    fun hpos => ?_⟩, fun hnot => ?_, ?_, ?_, fun fanout hf => bsearchLoop_eq h (between_fanout h hf)⟩
  · obtain ⟨i, hi, rfl⟩ := List.getElem_of_mem hx
    rw [List.length_take] at hi
    rw [List.getElem_take]
    exact lt_of_lt_insertPos _ (by omega)
  · obtain ⟨i, hi, rfl⟩ := List.getElem_of_mem hx
    rw [List.getElem_drop]
    exact le_of_insertPos_le h _ (by omega)
  · rw [if_pos hmem, toInt_eq hpos]
  · rw [if_neg hnot]
    split_ifs <;> first | rfl | omega
  all_goals split_ifs <;> simp

theorem oidPos_eq_insertPos_pair : oidPos 20 [beBytes 20 1, beBytes 20 3] (beBytes 20 2) = .ok (-2) := by
  have h : IsTable 20 [beBytes 20 1, beBytes 20 3] := ⟨by decide, by decide⟩
  obtain ⟨pos, hle, hbefore, hbehind, -, hpos, -⟩ := oidPos_eq_insertPos h (by decide) (length_beBytes 20 2)
  match pos with
  | 0 => exact absurd (hbehind _ List.mem_cons_self) (by decide)
  | 1 => exact hpos (by decide)
  | 2 => exact absurd (hbefore (beBytes 20 3) (by decide)) (by decide)
  | _ + 3 => exact absurd hle (by simp)

def manyNames : List ObjectId := (List.range (2 ^ 31)).map (beBytes 20)

lemma beBytes_lt {a b : Nat} (hlt : a < b) (hb : b ≤ 2 ^ 31) : beBytes 20 a < beBytes 20 b := by
  rw [beBytes_lt_iff, Nat.mod_eq_of_lt (by omega), Nat.mod_eq_of_lt (by omega)]
  exact hlt

/-- The position of a name behind 2^31 names is not returned. -/
theorem oidPos_many : IsTable 20 manyNames ∧ beBytes 20 (2 ^ 31) ∉ manyNames ∧
    oidPos 20 manyNames (beBytes 20 (2 ^ 31)) = .error .overflow := by
  have hmem : ∀ x ∈ manyNames, x < beBytes 20 (2 ^ 31) ∧ x.length = 20 := fun x hx => by
    obtain ⟨i, hi, rfl⟩ := List.mem_map.mp hx
    exact ⟨beBytes_lt (List.mem_range.mp hi) le_rfl, length_beBytes 20 i⟩
  have h : IsTable 20 manyNames := by
    refine ⟨List.pairwise_map.mpr (List.pairwise_lt_range.imp_of_mem fun _ hb hlt => ?_), fun x hx => (hmem x hx).2⟩
    exact beBytes_lt hlt (List.mem_range.mp hb).le
  have hlength : manyNames.length = 2 ^ 31 := by rw [manyNames, List.length_map, List.length_range]
  obtain ⟨heq, hnot⟩ := insertPos_last h (by omega) (hmem _ (getD_mem (by omega))).1
  refine ⟨h, hnot, ?_⟩
  rw [oidPos_eq h (by omega) (length_beBytes 20 _), resultAt, if_neg hnot, heq, hlength]
  rfl

end GitCore.HashLookup
