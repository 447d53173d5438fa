import GitCore.Xdiff.Env

/-!
# Groups of changed lines

The group cursor of `xdl_change_compact` and what its moves do to the lines without a flag.
-/

namespace GitCore.Xdiff

def recsMatch (rec1 rec2 : XRecord) : Bool := rec1.minimalPerfectHash == rec2.minimalPerfectHash

namespace XdFile

/-- `recs[i]` -/
def line (xdf : XdFile) (i : Nat) : XRecord := xdf.recs.getD i default

/-- `changed[i]` -/
def isChanged (xdf : XdFile) (i : Nat) : Bool := xdf.changed.getD i false

def setChanged (xdf : XdFile) (i : Nat) (b : Bool) : XdFile where
  recs := xdf.recs
  changed := xdf.changed.set i b
  changed_length := by rw [List.length_set, xdf.changed_length]
  nrec_le := xdf.nrec_le

/-- The `memcpy` of `count` flags to `changed + i`. -/
def copyChanged (xdf : XdFile) (i : Nat) (flags : List Bool) (count : Nat) : XdFile where
  recs := xdf.recs
  changed := xdf.changed.mapIdx fun j b => if i ≤ j ∧ j < i + count then flags.getD (j - i) false else b
  changed_length := by rw [List.length_mapIdx, xdf.changed_length]
  nrec_le := xdf.nrec_le

lemma lt_nrec_of_isChanged {xdf : XdFile} {i : Nat} (h : xdf.isChanged i = true) : i < xdf.nrec := by
  by_contra hge
  have hlen : xdf.changed.length ≤ i := by
    rw [xdf.changed_length]
    exact not_lt.mp hge
  rw [isChanged, List.getD_eq_getElem?_getD, List.getElem?_eq_none hlen] at h
  cases h

end XdFile

structure XdlGroup where
  start : Nat
  stop : Nat
deriving DecidableEq

def XdlGroup.size (g : XdlGroup) : Nat := g.stop - g.start

/-- The loop `while (changed[i]) i++`. -/
def groupEnd (xdf : XdFile) (i : Nat) : Nat :=
  if xdf.isChanged i then groupEnd xdf (i + 1) else i
termination_by xdf.nrec - i
decreasing_by
  have := XdFile.lt_nrec_of_isChanged ‹_›
  omega

def groupInit (xdf : XdFile) : XdlGroup := ⟨0, groupEnd xdf 0⟩

def groupNext (xdf : XdFile) (g : XdlGroup) : Option XdlGroup :=
  if g.stop = xdf.nrec then none else some ⟨g.stop + 1, groupEnd xdf (g.stop + 1)⟩

def groupPrevious (xdf : XdFile) (g : XdlGroup) : Option XdlGroup :=
  if g.start = 0 then none else some ⟨groupStart xdf (g.start - 1), g.start - 1⟩

def groupSlideDown (xdf : XdFile) (g : XdlGroup) : Option (XdFile × XdlGroup) :=
  if g.stop < xdf.nrec ∧ recsMatch (xdf.line g.start) (xdf.line g.stop) then
    let xdf := (xdf.setChanged g.start false).setChanged g.stop true
    some (xdf, ⟨g.start + 1, groupEnd xdf (g.stop + 1)⟩)
  else none

def groupSlideUp (xdf : XdFile) (g : XdlGroup) : Option (XdFile × XdlGroup) :=
  if 0 < g.start ∧ recsMatch (xdf.line (g.start - 1)) (xdf.line (g.stop - 1)) then
    let xdf := (xdf.setChanged (g.start - 1) true).setChanged (g.stop - 1) false
    some (xdf, ⟨groupStart xdf (g.start - 1), g.stop - 1⟩)
  else none

section Measures

variable {xdf xdf' : XdFile} {g g' : XdlGroup}

lemma le_groupEnd (i : Nat) : i ≤ groupEnd xdf i := by
  induction hn : xdf.nrec - i using Nat.strong_induction_on generalizing i with
  | _ n ih =>
    rw [groupEnd]
    split_ifs with hi
    · have := XdFile.lt_nrec_of_isChanged hi
      exact (Nat.le_succ i).trans (ih (xdf.nrec - (i + 1)) (by omega) (i + 1) rfl)
    · exact le_rfl

variable {i : Nat}

lemma groupEnd_le (h : i ≤ xdf.nrec) : groupEnd xdf i ≤ xdf.nrec := by
  induction hn : xdf.nrec - i using Nat.strong_induction_on generalizing i with
  | _ n ih =>
    rw [groupEnd]
    split_ifs with hi
    · have := XdFile.lt_nrec_of_isChanged hi
      exact ih (xdf.nrec - (i + 1)) (by omega) this rfl
    · exact h

lemma groupSlideUp_lt (h : groupSlideUp xdf g = some (xdf', g')) :
    g'.start < g.start ∧ g'.stop = g.stop - 1 ∧ g.size ≤ g'.size ∧ xdf'.recs = xdf.recs := by
  rw [groupSlideUp] at h
  split_ifs at h with hslide
  obtain ⟨rfl, rfl⟩ := Prod.mk.inj (Option.some_inj.mp h)
  have hle := groupStart_le ((xdf.setChanged (g.start - 1) true).setChanged (g.stop - 1) false) (g.start - 1)
  obtain ⟨hpos, -⟩ := hslide
  refine ⟨?_, rfl, ?_, rfl⟩
  · dsimp only
    omega
  · dsimp only [XdlGroup.size]
    omega

lemma groupSlideDown_lt (h : groupSlideDown xdf g = some (xdf', g')) :
    g.stop < g'.stop ∧ g'.stop ≤ xdf.nrec ∧ g.size ≤ g'.size ∧ xdf'.recs = xdf.recs := by
  rw [groupSlideDown] at h
  split_ifs at h with hslide
  obtain ⟨rfl, rfl⟩ := Prod.mk.inj (Option.some_inj.mp h)
  set moved := (xdf.setChanged g.start false).setChanged g.stop true
  have hlow := @le_groupEnd moved (g.stop + 1)
  have hhigh := @groupEnd_le moved (g.stop + 1) hslide.1
  refine ⟨hlow, hhigh, ?_, rfl⟩
  dsimp only [XdlGroup.size]
  omega

end Measures

section Flags

variable {xdf xdf' : XdFile}

/-- How many lines before line `i` have no flag. -/
def XdFile.index (xdf : XdFile) (i : Nat) : Nat := (xdf.unchangedBefore i).length

def XdFile.flaggedFrom (xdf : XdFile) (i : Nat) : Nat := (xdf.changed.drop i).count true

lemma XdFile.line_eq (h : i < xdf.nrec) : xdf.line i = xdf.recs[i] := by
  rw [line, List.getD_eq_getElem?_getD, List.getElem?_eq_getElem h, Option.getD_some]

lemma unchangedBefore_succ_line (h : i < xdf.nrec) : xdf.unchangedBefore (i + 1) =
    if xdf.isChanged i then xdf.unchangedBefore i else xdf.unchangedBefore i ++ [xdf.line i] := by
  rw [unchangedBefore_succ xdf h, XdFile.line_eq h]
  rfl

lemma index_succ (h : i < xdf.nrec) :
    xdf.index (i + 1) = if xdf.isChanged i then xdf.index i else xdf.index i + 1 := by
  rw [XdFile.index, unchangedBefore_succ_line h]
  split_ifs
  · rfl
  · rw [List.length_append, List.length_singleton, XdFile.index]

@[simp]
lemma index_zero : xdf.index 0 = 0 := by
  simp [XdFile.index, XdFile.unchangedBefore]

lemma index_nrec : xdf.index xdf.nrec = xdf.unchanged.length := by
  rw [XdFile.index, unchangedBefore_nrec]

lemma index_mono {i j : Nat} (hij : i ≤ j) (hj : j ≤ xdf.nrec) : xdf.index i ≤ xdf.index j := by
  induction j, hij using Nat.le_induction with
  | base => exact le_rfl
  | succ j hij ih =>
    have := ih (by omega)
    rw [index_succ (by omega)]
    split_ifs <;> omega

lemma isChanged_setChanged {i j : Nat} {b : Bool} (h : i < xdf.nrec) :
    (xdf.setChanged i b).isChanged j = if i = j then b else xdf.isChanged j := by
  have hi : i < xdf.changed.length := by rwa [xdf.changed_length]
  simp only [XdFile.isChanged, XdFile.setChanged, List.getD_eq_getElem?_getD, List.getElem?_set, hi, if_true]
  split_ifs <;> rfl

lemma unchangedBefore_of_flagged {p q : Nat} (hpq : p ≤ q) (hq : q ≤ xdf.nrec)
    (h : ∀ i, p ≤ i → i < q → xdf.isChanged i = true) : xdf.unchangedBefore q = xdf.unchangedBefore p := by
  induction q, hpq using Nat.le_induction with
  | base => rfl
  | succ q hpq ih =>
    rw [unchangedBefore_succ_line (by omega), if_pos (h q hpq (Nat.lt_succ_self q))]
    exact ih (by omega) fun i hi hiq => h i hi (by omega)

lemma exists_unchangedBefore_append (hrecs : xdf'.recs = xdf.recs) {p q : Nat} (hpq : p ≤ q) (hq : q ≤ xdf.nrec)
    (hflags : ∀ i, p ≤ i → i < q → xdf'.isChanged i = xdf.isChanged i) :
    ∃ lines, xdf.unchangedBefore q = xdf.unchangedBefore p ++ lines ∧
      xdf'.unchangedBefore q = xdf'.unchangedBefore p ++ lines := by
  have hnrec : xdf'.nrec = xdf.nrec := congrArg List.length hrecs
  have hline : ∀ i, xdf'.line i = xdf.line i := fun i => by rw [XdFile.line, XdFile.line, hrecs]
  induction q, hpq using Nat.le_induction with
  | base => exact ⟨[], by simp⟩
  | succ q hpq ih =>
    obtain ⟨lines, hold, hnew⟩ := ih (by omega) fun i hi hiq => hflags i hi (by omega)
    rw [unchangedBefore_succ_line (by omega), unchangedBefore_succ_line (by omega), hflags q hpq (by omega), hline]
    split_ifs
    · exact ⟨lines, hold, hnew⟩
    · exact ⟨lines ++ [xdf.line q], by rw [hold, List.append_assoc], by rw [hnew, List.append_assoc]⟩

lemma unchangedBefore_congr (hrecs : xdf'.recs = xdf.recs) {p q : Nat} (hpq : p ≤ q) (hq : q ≤ xdf.nrec)
    (hflags : ∀ i, p ≤ i → i < q → xdf'.isChanged i = xdf.isChanged i)
    (h : SameLines (xdf.unchangedBefore p) (xdf'.unchangedBefore p)) :
    SameLines (xdf.unchangedBefore q) (xdf'.unchangedBefore q) := by
  obtain ⟨lines, hold, hnew⟩ := exists_unchangedBefore_append hrecs hpq hq hflags
  rw [hold, hnew]
  exact h.append (SameLines.refl _)

lemma XdFile.isChanged_eq (h : i < xdf.changed.length) : xdf.isChanged i = xdf.changed[i] := by
  rw [isChanged, List.getD_eq_getElem?_getD, List.getElem?_eq_getElem h, Option.getD_some]

lemma flaggedFrom_succ (h : i < xdf.nrec) :
    xdf.flaggedFrom i = xdf.flaggedFrom (i + 1) + if xdf.isChanged i then 1 else 0 := by
  have hi : i < xdf.changed.length := by rwa [xdf.changed_length]
  rw [XdFile.flaggedFrom, List.drop_eq_getElem_cons hi, List.count_cons, XdFile.flaggedFrom, XdFile.isChanged_eq hi]
  cases xdf.changed[i] <;> rfl

lemma flaggedFrom_anti {i j : Nat} (h : i ≤ j) : xdf.flaggedFrom j ≤ xdf.flaggedFrom i :=
  (List.drop_sublist_drop_left _ h).count_le _

lemma eq_of_isChanged (hrecs : xdf'.recs = xdf.recs) (h : ∀ i, xdf'.isChanged i = xdf.isChanged i) : xdf' = xdf := by
  have hchanged : xdf'.changed = xdf.changed := by
    refine List.ext_getElem (by rw [xdf'.changed_length, xdf.changed_length, hrecs]) fun i hi' hi => ?_
    rw [← XdFile.isChanged_eq, ← XdFile.isChanged_eq]
    exact h i
  cases xdf
  cases xdf'
  cases hrecs
  cases hchanged
  rfl

lemma flaggedFrom_congr (hrecs : xdf'.recs = xdf.recs) {p : Nat}
    (hflags : ∀ i, p ≤ i → xdf'.isChanged i = xdf.isChanged i) : xdf'.flaggedFrom p = xdf.flaggedFrom p := by
  have hlen : xdf'.changed.length = xdf.changed.length := by
    rw [xdf'.changed_length, xdf.changed_length, hrecs]
  have hdrop : xdf'.changed.drop p = xdf.changed.drop p := by
    refine List.ext_getElem (by rw [List.length_drop, List.length_drop, hlen]) fun i hi' hi => ?_
    rw [List.length_drop] at hi hi'
    rw [List.getElem_drop, List.getElem_drop, ← XdFile.isChanged_eq, ← XdFile.isChanged_eq]
    exact hflags _ (Nat.le_add_right p i)
  rw [XdFile.flaggedFrom, XdFile.flaggedFrom, hdrop]

def unmarked (lines : List XRecord) (flags : List Bool) : List XRecord :=
  ((lines.zip flags).filter (fun line => ¬ line.2)).map Prod.fst

lemma unmarked_append {lines lines' : List XRecord} {flags flags' : List Bool} (h : lines.length = flags.length) :
    unmarked (lines ++ lines') (flags ++ flags') = unmarked lines flags ++ unmarked lines' flags' := by
  rw [unmarked, List.zip_append h, List.filter_append, List.map_append]
  rfl

lemma length_unmarked {lines : List XRecord} {flags : List Bool} (h : flags.length = lines.length) :
    (unmarked lines flags).length + flags.count true = flags.length := by
  induction lines generalizing flags with
  | nil =>
    rw [List.length_nil, List.length_eq_zero_iff] at h
    subst h
    rfl
  | cons line lines ih =>
    cases flags with
    | nil => cases h
    | cons flag flags =>
      have hcount := ih (Nat.succ.inj h)
      rw [unmarked] at hcount ⊢
      cases flag <;> simp at hcount ⊢ <;> omega

lemma count_changed_le (hrecs : xdf'.recs = xdf.recs) (h : xdf.unchanged.length ≤ xdf'.unchanged.length) :
    xdf'.changed.count true ≤ xdf.changed.count true := by
  have hold := length_unmarked xdf.changed_length
  have hnew := length_unmarked xdf'.changed_length
  rw [xdf.changed_length] at hold
  rw [xdf'.changed_length, hrecs] at hnew
  have hunchanged : unmarked xdf.recs xdf.changed = xdf.unchanged := rfl
  have hunchanged' : unmarked xdf.recs xdf'.changed = xdf'.unchanged := by rw [XdFile.unchanged, hrecs]; rfl
  rw [hunchanged] at hold
  rw [hunchanged'] at hnew
  omega

variable {count i : Nat} {flags : List Bool}

lemma isChanged_copyChanged (hle : i + count ≤ xdf.nrec) (j : Nat) : (xdf.copyChanged i flags count).isChanged j =
    if i ≤ j ∧ j < i + count then flags.getD (j - i) false else xdf.isChanged j := by
  rw [XdFile.isChanged, XdFile.copyChanged, List.getD_eq_getElem?_getD, List.getElem?_mapIdx]
  by_cases hj : j < xdf.changed.length
  · rw [List.getElem?_eq_getElem hj, Option.map_some, Option.getD_some, XdFile.isChanged_eq hj]
  · have hge : xdf.nrec ≤ j := by
      rw [XdFile.nrec, ← xdf.changed_length]
      exact not_lt.mp hj
    have hfree : xdf.isChanged j = false :=
      Bool.eq_false_iff.mpr fun h => absurd (XdFile.lt_nrec_of_isChanged h) (not_lt.mpr hge)
    rw [if_neg (by omega), hfree, List.getElem?_eq_none (not_lt.mp hj)]
    rfl

lemma unchangedBefore_copyChanged (hle : i + count ≤ xdf.nrec) (hlen : flags.length = count) :
    (xdf.copyChanged i flags count).unchangedBefore (i + count) =
      xdf.unchangedBefore i ++ unmarked ((xdf.recs.drop i).take count) flags := by
  have hstep : ∀ k ≤ count, (xdf.copyChanged i flags count).unchangedBefore (i + k) =
      xdf.unchangedBefore i ++ unmarked ((xdf.recs.drop i).take k) (flags.take k) := by
    intro k hk
    induction k with
    | zero =>
      obtain ⟨lines, hold, hnew⟩ := @exists_unchangedBefore_append xdf (xdf.copyChanged i flags count) rfl 0 i
        (Nat.zero_le i) (by omega) fun j _ hj => by rw [isChanged_copyChanged hle, if_neg (by omega)]
      rw [Nat.add_zero, hnew, hold]
      simp [XdFile.unchangedBefore, unmarked]
    | succ k ih =>
      have hlt : i + k < (xdf.copyChanged i flags count).nrec := show i + k < xdf.nrec by omega
      have hk' : k < (xdf.recs.drop i).length := by
        rw [List.length_drop]
        exact Nat.lt_sub_of_add_lt (by rw [Nat.add_comm]; exact hlt)
      have hkf : k < flags.length := by omega
      have hsame : ((xdf.recs.drop i).take k).length = (flags.take k).length := by
        rw [List.length_take, List.length_take]
        omega
      have hsub : i + k - i = k := Nat.add_sub_cancel_left i k
      have hin : i ≤ i + k ∧ i + k < i + count := by omega
      rw [← Nat.add_assoc, unchangedBefore_succ_line hlt, ih (by omega), isChanged_copyChanged hle,
        if_pos hin, hsub, List.take_succ_eq_append_getElem hk', List.take_succ_eq_append_getElem hkf,
        unmarked_append hsame, List.getElem_drop, List.getD_eq_getElem?_getD, List.getElem?_eq_getElem hkf,
        Option.getD_some, XdFile.line_eq hlt]
      cases flags[k]
      · simp [unmarked, XdFile.copyChanged]
      · simp [unmarked]
  have hall := hstep count le_rfl
  rwa [List.take_of_length_le hlen.le] at hall

structure Slid (xdf xdf' : XdFile) (a b : Nat) : Prop where
  recs : xdf'.recs = xdf.recs
  lt : a < b
  lt_nrec : b < xdf.nrec
  free : xdf.isChanged a = false
  flagged : ∀ i, a < i → i ≤ b → xdf.isChanged i = true
  flagged' : ∀ i, a ≤ i → i < b → xdf'.isChanged i = true
  free' : xdf'.isChanged b = false
  outside : ∀ i, i < a ∨ b < i → xdf'.isChanged i = xdf.isChanged i
  same : recsMatch (xdf.line a) (xdf.line b)

variable {a b : Nat}

lemma Slid.nrec (h : Slid xdf xdf' a b) : xdf'.nrec = xdf.nrec := congrArg List.length h.recs

lemma Slid.before (h : Slid xdf xdf' a b) {i : Nat} (hi : i ≤ a) :
    SameLines (xdf.unchangedBefore i) (xdf'.unchangedBefore i) := by
  have hzero : SameLines (xdf.unchangedBefore 0) (xdf'.unchangedBefore 0) := by
    simp [SameLines, XdFile.unchangedBefore]
  have := h.lt
  have := h.lt_nrec
  exact unchangedBefore_congr h.recs (Nat.zero_le i) (by omega) (fun j _ hj => h.outside j (.inl (by omega))) hzero

lemma Slid.behind (h : Slid xdf xdf' a b) {i : Nat} (hi : b < i) (hle : i ≤ xdf.nrec) :
    SameLines (xdf.unchangedBefore i) (xdf'.unchangedBefore i) := by
  have hlt := h.lt
  have hb := h.lt_nrec
  have hnrec := h.nrec
  have hold : xdf.unchangedBefore (b + 1) = xdf.unchangedBefore a ++ [xdf.line a] := by
    rw [unchangedBefore_of_flagged (p := a + 1) (by omega) (by omega) fun i hi hib => h.flagged i hi (by omega),
      unchangedBefore_succ_line (by omega), h.free, if_neg (by simp)]
  have hnew : xdf'.unchangedBefore (b + 1) = xdf'.unchangedBefore a ++ [xdf'.line b] := by
    rw [unchangedBefore_succ_line (by omega), h.free', if_neg (by simp),
      unchangedBefore_of_flagged (p := a) (by omega) (by omega) h.flagged']
  refine unchangedBefore_congr h.recs hi hle (fun j hj _ => h.outside j (.inr hj)) ?_
  rw [hold, hnew]
  refine (h.before le_rfl).append ?_
  have hline : xdf'.line b = xdf.line b := by rw [XdFile.line, XdFile.line, h.recs]
  have hsame := h.same
  rw [recsMatch, beq_iff_eq] at hsame
  simpa [SameLines, hline] using hsame

lemma Slid.unchanged (h : Slid xdf xdf' a b) : SameLines xdf.unchanged xdf'.unchanged := by
  have hsame := h.behind h.lt_nrec le_rfl
  rwa [unchangedBefore_nrec, ← h.nrec, unchangedBefore_nrec] at hsame

end Flags

structure IsGroup (xdf : XdFile) (g : XdlGroup) : Prop where
  start_le : g.start ≤ g.stop
  stop_le : g.stop ≤ xdf.nrec
  flagged : ∀ i, g.start ≤ i → i < g.stop → xdf.isChanged i = true
  before : xdf.changedBefore g.start = false
  behind : xdf.isChanged g.stop = false

section Groups

variable {xdf xdf' : XdFile} {g g' : XdlGroup}

lemma isChanged_of_groupStart {i j : Nat} (h : groupStart xdf i ≤ j) (hj : j < i) : xdf.isChanged j = true := by
  induction i with
  | zero => omega
  | succ i ih =>
    rw [groupStart] at h
    split_ifs at h with hi
    · obtain rfl | hlt := Nat.eq_or_lt_of_le (Nat.le_of_lt_succ hj)
      · exact hi
      · exact ih h hlt
    · omega

lemma isChanged_of_groupEnd {i j : Nat} (h : i ≤ j) (hj : j < groupEnd xdf i) : xdf.isChanged j = true := by
  induction hn : xdf.nrec - i using Nat.strong_induction_on generalizing i with
  | _ n ih =>
    rw [groupEnd] at hj
    split_ifs at hj with hi
    · have := XdFile.lt_nrec_of_isChanged hi
      obtain rfl | hlt := Nat.eq_or_lt_of_le h
      · exact hi
      · exact ih (xdf.nrec - (i + 1)) (by omega) hlt hj rfl
    · omega

lemma isChanged_groupEnd (i : Nat) : xdf.isChanged (groupEnd xdf i) = false := by
  induction hn : xdf.nrec - i using Nat.strong_induction_on generalizing i with
  | _ n ih =>
    rw [groupEnd]
    split_ifs with hi
    · have := XdFile.lt_nrec_of_isChanged hi
      exact ih (xdf.nrec - (i + 1)) (by omega) (i + 1) rfl
    · simpa using hi

lemma changedBefore_succ (i : Nat) : xdf.changedBefore (i + 1) = xdf.isChanged i := rfl

lemma isGroup_groupEnd (hi : i ≤ xdf.nrec) (h : xdf.changedBefore i = false) :
    IsGroup xdf ⟨i, groupEnd xdf i⟩ where
  start_le := le_groupEnd i
  stop_le := groupEnd_le hi
  flagged _ := isChanged_of_groupEnd
  before := h
  behind := isChanged_groupEnd i

lemma isGroup_groupStart (hi : i ≤ xdf.nrec) (h : xdf.isChanged i = false) :
    IsGroup xdf ⟨groupStart xdf i, i⟩ where
  start_le := groupStart_le xdf i
  stop_le := hi
  flagged _ := isChanged_of_groupStart
  before := (groupStart_spec xdf hi).2
  behind := h

lemma isGroup_groupInit : IsGroup xdf (groupInit xdf) := isGroup_groupEnd (Nat.zero_le _) rfl

namespace IsGroup

lemma index_stop (h : IsGroup xdf g) : xdf.index g.stop = xdf.index g.start :=
  congrArg List.length (unchangedBefore_of_flagged h.start_le h.stop_le h.flagged)

lemma isChanged_pred (h : IsGroup xdf g) (hpos : 0 < g.start) : xdf.isChanged (g.start - 1) = false := by
  obtain ⟨i, hi⟩ := Nat.exists_eq_succ_of_ne_zero hpos.ne'
  have hbefore := h.before
  rw [hi] at hbefore ⊢
  exact hbefore

lemma index_pred (h : IsGroup xdf g) (hpos : 0 < g.start) : xdf.index (g.start - 1) + 1 = xdf.index g.start := by
  have hfree := h.isChanged_pred hpos
  have hle := h.start_le
  have hstop := h.stop_le
  have hsucc := @index_succ xdf (g.start - 1) (by omega)
  rw [Nat.sub_add_cancel hpos, hfree, if_neg (by simp)] at hsucc
  exact hsucc.symm

lemma index_succ_stop (h : IsGroup xdf g) (hlt : g.stop < xdf.nrec) :
    xdf.index (g.stop + 1) = xdf.index g.start + 1 := by
  rw [index_succ hlt, h.behind, if_neg (by simp), h.index_stop]

lemma eq_of_index (h : IsGroup xdf g) (h' : IsGroup xdf g') (heq : xdf.index g.start = xdf.index g'.start) :
    g = g' := by
  have hstart : ∀ {g g' : XdlGroup}, IsGroup xdf g → IsGroup xdf g' → xdf.index g.start = xdf.index g'.start →
      g'.start ≤ g.start := by
    intro g g' h h' heq
    by_contra hlt
    push Not at hlt
    have hfree := h'.isChanged_pred (by omega)
    have hle' := h'.start_le
    have hstop' := h'.stop_le
    by_cases hin : g'.start ≤ g.stop
    · rw [h.flagged (g'.start - 1) (by omega) (by omega)] at hfree
      cases hfree
    · have hcount := h.index_succ_stop (by omega)
      have hmono := @index_mono xdf (g.stop + 1) g'.start (by omega) (by omega)
      omega
  have hstop : ∀ {g g' : XdlGroup}, IsGroup xdf g → IsGroup xdf g' → g.start = g'.start → g'.stop ≤ g.stop := by
    intro g g' h h' hs
    by_contra hlt
    push Not at hlt
    have hflag := h'.flagged g.stop (hs ▸ h.start_le) hlt
    rw [h.behind] at hflag
    cases hflag
  have hs := le_antisymm (hstart h' h heq.symm) (hstart h h' heq)
  have he := le_antisymm (hstop h' h hs.symm) (hstop h h' hs)
  obtain ⟨start, stop⟩ := g
  obtain ⟨start', stop'⟩ := g'
  cases hs
  cases he
  rfl

end IsGroup

lemma groupNext_spec (hle : g.stop ≤ xdf.nrec) (hfree : xdf.isChanged g.stop = false) :
    (g.stop = xdf.nrec ∧ groupNext xdf g = none) ∨
      ∃ g', groupNext xdf g = some g' ∧ g'.start = g.stop + 1 ∧ IsGroup xdf g' ∧
        xdf.index g'.start = xdf.index g.stop + 1 := by
  by_cases hend : g.stop = xdf.nrec
  · exact .inl ⟨hend, if_pos hend⟩
  · refine .inr ⟨_, if_neg hend, rfl, isGroup_groupEnd (by omega) hfree, ?_⟩
    rw [index_succ (by omega), hfree, if_neg (by simp)]

lemma groupPrevious_spec (h : IsGroup xdf g) (hpos : 0 < g.start) :
    ∃ g', groupPrevious xdf g = some g' ∧ IsGroup xdf g' ∧ xdf.index g'.start + 1 = xdf.index g.start := by
  have hle := h.start_le
  have hstop := h.stop_le
  have hprev := isGroup_groupStart (i := g.start - 1) (by omega) (h.isChanged_pred hpos)
  refine ⟨_, if_neg hpos.ne', hprev, ?_⟩
  rw [← hprev.index_stop]
  exact h.index_pred hpos

lemma slid_of_slideUp (h : IsGroup xdf g) (hne : g.start < g.stop)
    (hslide : groupSlideUp xdf g = some (xdf', g')) :
    0 < g.start ∧ Slid xdf xdf' (g.start - 1) (g.stop - 1) ∧
      g' = ⟨groupStart xdf' (g.start - 1), g.stop - 1⟩ := by
  rw [groupSlideUp] at hslide
  split_ifs at hslide with hmatch
  obtain ⟨rfl, rfl⟩ := Prod.mk.inj (Option.some_inj.mp hslide)
  obtain ⟨hpos, hmatch⟩ := hmatch
  have hstop := h.stop_le
  have hfirst : g.start - 1 < xdf.nrec := by omega
  have hlast : g.stop - 1 < (xdf.setChanged (g.start - 1) true).nrec := show g.stop - 1 < xdf.nrec by omega
  refine ⟨hpos, ?_, rfl⟩
  constructor
  case recs => rfl
  case lt => omega
  case lt_nrec => omega
  case free => exact h.isChanged_pred hpos
  case flagged => exact fun i hi hib => h.flagged i (by omega) (by omega)
  case flagged' =>
    intro i hi hib
    rw [isChanged_setChanged hlast, if_neg (by omega), isChanged_setChanged hfirst]
    split_ifs
    · rfl
    · exact h.flagged i (by omega) (by omega)
  case free' => rw [isChanged_setChanged hlast, if_pos rfl]
  case outside =>
    intro i hi
    rw [isChanged_setChanged hlast, if_neg (by omega), isChanged_setChanged hfirst, if_neg (by omega)]
  case same => exact hmatch

lemma slid_of_slideDown (h : IsGroup xdf g) (hne : g.start < g.stop)
    (hslide : groupSlideDown xdf g = some (xdf', g')) :
    Slid xdf' xdf g.start g.stop ∧ g' = ⟨g.start + 1, groupEnd xdf' (g.stop + 1)⟩ := by
  rw [groupSlideDown] at hslide
  split_ifs at hslide with hmatch
  obtain ⟨rfl, rfl⟩ := Prod.mk.inj (Option.some_inj.mp hslide)
  obtain ⟨hlt, hmatch⟩ := hmatch
  have hfirst : g.start < xdf.nrec := by omega
  have hlast : g.stop < (xdf.setChanged g.start false).nrec := hlt
  refine ⟨?_, rfl⟩
  constructor
  case recs => rfl
  case lt => exact hne
  case lt_nrec => exact hlt
  case free => rw [isChanged_setChanged hlast, if_neg (by omega), isChanged_setChanged hfirst, if_pos rfl]
  case flagged =>
    intro i hi hib
    rw [isChanged_setChanged hlast]
    split_ifs
    · rfl
    · rw [isChanged_setChanged hfirst, if_neg (by omega)]
      exact h.flagged i (by omega) (by omega)
  case flagged' => exact h.flagged
  case free' => exact h.behind
  case outside =>
    intro i hi
    rw [isChanged_setChanged hlast, if_neg (by omega), isChanged_setChanged hfirst, if_neg (by omega)]
  case same => exact hmatch

lemma isGroup_slideUp (h : IsGroup xdf g) (hne : g.start < g.stop)
    (hslide : groupSlideUp xdf g = some (xdf', g')) :
    IsGroup xdf' g' ∧ xdf'.index g'.start + 1 = xdf.index g.start ∧
      xdf'.flaggedFrom g'.stop = xdf.flaggedFrom g.stop := by
  obtain ⟨hpos, hslid, rfl⟩ := slid_of_slideUp h hne hslide
  have hstop := h.stop_le
  have hnrec := hslid.nrec
  have hle := groupStart_le xdf' (g.start - 1)
  obtain ⟨hsame, hbefore⟩ := groupStart_spec xdf' (i := g.start - 1) (by omega)
  refine ⟨⟨?_, ?_, ?_, hbefore, hslid.free'⟩, ?_, ?_⟩
  · dsimp only
    omega
  · dsimp only
    omega
  · intro i hi hib
    by_cases hlow : i < g.start - 1
    · exact isChanged_of_groupStart hi hlow
    · exact hslid.flagged' i (by omega) hib
  · rw [← h.index_pred hpos]
    have hindex : xdf'.index (groupStart xdf' (g.start - 1)) = xdf'.index (g.start - 1) := congrArg List.length hsame
    dsimp only
    rw [hindex, XdFile.index, XdFile.index, (hslid.before le_rfl).length]
  · have hsucc := @flaggedFrom_succ xdf' (g.stop - 1) (by omega)
    rw [hslid.free', Nat.sub_add_cancel (by omega)] at hsucc
    dsimp only
    rw [hsucc, if_neg (by simp), Nat.add_zero]
    exact flaggedFrom_congr hslid.recs fun i hi => hslid.outside i (.inr (by omega))

lemma isGroup_slideDown (h : IsGroup xdf g) (hne : g.start < g.stop)
    (hslide : groupSlideDown xdf g = some (xdf', g')) :
    IsGroup xdf' g' ∧ xdf'.index g'.start = xdf.index g.start + 1 ∧
      xdf'.flaggedFrom g'.stop ≤ xdf.flaggedFrom g.stop := by
  obtain ⟨hslid, rfl⟩ := slid_of_slideDown h hne hslide
  have hlt := hslid.lt_nrec
  refine ⟨⟨?_, groupEnd_le hlt, ?_, hslid.free, isChanged_groupEnd _⟩, ?_, ?_⟩
  · have := @le_groupEnd xdf' (g.stop + 1)
    dsimp only
    omega
  · intro i hi hib
    by_cases hlow : i ≤ g.stop
    · exact hslid.flagged i hi hlow
    · exact isChanged_of_groupEnd (by omega) hib
  · dsimp only
    rw [index_succ (by omega), hslid.free, if_neg (by simp), XdFile.index, XdFile.index, (hslid.before le_rfl).length]
  · have hle := @le_groupEnd xdf' (g.stop + 1)
    calc xdf'.flaggedFrom (groupEnd xdf' (g.stop + 1))
      _ ≤ xdf'.flaggedFrom (g.stop + 1) := flaggedFrom_anti hle
      _ = xdf.flaggedFrom (g.stop + 1) :=
        (flaggedFrom_congr hslid.recs fun i hi => hslid.outside i (.inr hi)).symm
      _ ≤ xdf.flaggedFrom g.stop := flaggedFrom_anti (Nat.le_succ _)

end Groups

end GitCore.Xdiff
