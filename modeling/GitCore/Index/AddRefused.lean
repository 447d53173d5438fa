import GitCore.Index.AddRun

/-!
# Entries that are refused

What a negative result of `add_index_entry` leaves of the index. The unmerged entries of a name are
removed for a merged one before it is refused.
-/

namespace GitCore.Index

variable {verifyPath : List UInt8 → UInt32 → Bool} {cache a b : List CacheEntry} {ce : CacheEntry}
  {option : AddOption}

/-- A conflict that the checks find. A conflict with a directory is not looked for when the entry goes
behind the last one. -/
def SeesConflict (cache : List CacheEntry) (ce : CacheEntry) : Prop :=
  ∃ q ∈ cache, FileConflict ce q ∨ DirConflict ce q ∧ ∀ last, cache.getLast? = some last → ¬AppendsAfter ce.name last

/-- The new entry is no path, or it has a conflict that is neither ignored nor replaced. -/
def Refused (verifyPath : List UInt8 → UInt32 → Bool) (cache : List CacheEntry) (ce : CacheEntry)
    (option : AddOption) : Prop :=
  verifyPath ce.name ce.ceMode = false ∨
    option.skipDfCheck = false ∧ option.okToReplace = false ∧ SeesConflict cache ce

structure LosesUnmerged (verifyPath : List UInt8 → UInt32 → Bool) (cache : List CacheEntry) (ce : CacheEntry)
    (option : AddOption) : Prop where
  search : option.justAppend = false
  merged : ceStage ce = 0
  unmerged : ∃ p ∈ cache, p.name = ce.name
  new : ∀ p ∈ cache, p.name = ce.name → ceStage p ≠ 0
  refused : Refused verifyPath (remaining cache ce) ce option

lemma hasFileName_refusing : (hasFileName ce false cache).2 = cache := by
  induction cache with
  | nil => rfl
  | cons p cache ih =>
    rw [hasFileName]
    split_ifs with _ _ hreplace
    · rfl
    · exact congrArg (p :: ·) ih
    · rfl
    · exact absurd rfl hreplace

lemma hasDirNameLoop_refusing (h : cache.Pairwise (fun a b => ceKey a < ceKey b)) (hce : ¬Removed ce) (slashPos : Nat) :
    (hasDirNameLoop ce.name (ceStage ce) false slashPos false cache).2 = cache ∧
      ((hasDirNameLoop ce.name (ceStage ce) false slashPos false cache).1 = true → ∃ q ∈ cache, DirConflict ce q) := by
  induction slashPos with
  | zero => exact ⟨rfl, fun h => by cases h⟩
  | succ len ih =>
    rw [hasDirNameLoop]
    by_cases hslash : ce.name[len]? ≠ some slash
    · rw [if_pos hslash]
      exact ih
    · rw [if_neg hslash]
      dsimp only
      cases hfound : unremovedAt cache (indexNameStagePos cache (ce.name.take len) (ceStage ce)) with
      | some p =>
        obtain ⟨a, b, hcache, hname, hstage, hremoved, -⟩ := unremovedAt_some h hfound
        refine ⟨rfl, fun _ => ⟨p, by simp [hcache], ⟨hstage.symm, hce, hremoved⟩, ?_⟩⟩
        push Not at hslash
        have hlen : (ce.name.take len).length = len := by
          obtain ⟨hlt, -⟩ := List.getElem?_eq_some_iff.mp hslash
          rw [List.length_take]
          omega
        rw [leadingDir_iff, hname, hlen]
        exact ⟨List.take_prefix .., hslash⟩
      | none =>
        dsimp only
        generalize (if indexNameStagePos cache (ce.name.take len) (ceStage ce) < 0 then _ else _) = pos
        split_ifs
        · exact ⟨rfl, False.elim⟩
        · exact ih

lemma hasDirName_refusing (h : IndexInv cache) (hce : ¬Removed ce) :
    (hasDirName cache ce false).2 = cache ∧
      ((hasDirName cache ce false).1 = true ↔
        ∃ q ∈ cache, DirConflict ce q ∧ ∀ last, cache.getLast? = some last → ¬AppendsAfter ce.name last) := by
  have hspec : LastTells cache ce → (hasDirName cache ce false).1 = false → ∀ q ∈ cache, ¬DirConflict ce q := by
    intro hlast hno q hq
    obtain ⟨-, hkeep, hsound⟩ := @hasDirName_spec _ false _ h hlast
    refine hsound (.inl hno) q ?_
    rwa [hkeep hno]
  have hback : (∃ q ∈ cache, DirConflict ce q ∧ ∀ last, cache.getLast? = some last → ¬AppendsAfter ce.name last) →
      (hasDirName cache ce false).1 = true := by
    rintro ⟨q, hq, hconflict, hlast⟩
    by_contra hno
    exact hspec (fun last hget happends => absurd happends (hlast last hget)) ((Bool.not_eq_true _).mp hno) q hq hconflict
  refine ⟨?_, fun hfound => ?_, hback⟩
  · unfold hasDirName
    split
    · rfl
    · split_ifs
      · rfl
      · exact (hasDirNameLoop_refusing h.sorted hce _).1
  · unfold hasDirName at hfound
    split at hfound
    · cases hfound
    · rename_i last hget
      split_ifs at hfound with happends
      obtain ⟨q, hq, hconflict⟩ := (hasDirNameLoop_refusing h.sorted hce _).2 hfound
      refine ⟨q, hq, hconflict, fun last' hlast' => ?_⟩
      rwa [Option.some.inj (hlast'.symm.trans hget)]

lemma hasDirName_sublist (h : IndexInv cache) (okToReplace : Bool) : (hasDirName cache ce okToReplace).2.Sublist cache := by
  unfold hasDirName
  split
  · exact .refl _
  · split_ifs
    · exact .refl _
    · exact (hasDirNameLoop_spec h fun q _ hconflict => hconflict.2.length_lt).1

lemma checkFileDirectoryConflict_sublist (h : IndexInv (a ++ b)) (okToReplace : Bool) :
    (checkFileDirectoryConflict (a ++ b) ce a.length okToReplace).2.Sublist (a ++ b) := by
  have hsub : (a ++ (hasFileName ce okToReplace b).2).Sublist (a ++ b) := List.Sublist.append_left hasFileName_sublist a
  unfold checkFileDirectoryConflict
  split_ifs
  · exact .refl _
  · rw [List.drop_left, List.take_left]
    exact (hasDirName_sublist (h.sublist hsub) okToReplace).trans hsub

lemma checkFileDirectoryConflict_refusing (h : IndexInv (a ++ b)) :
    (checkFileDirectoryConflict (a ++ b) ce a.length false).2 = a ++ b := by
  unfold checkFileDirectoryConflict
  split_ifs with hce
  · rfl
  · rw [List.drop_left, List.take_left]
    dsimp only
    rw [hasFileName_refusing]
    exact (hasDirName_refusing h hce).1

lemma hasFileName_iff (hce : ¬Removed ce) (hsorted : b.Pairwise (fun a b => ceKey a < ceKey b))
    (hbefore : ∀ p ∈ a, ceKey p < ceKey ce) (hbehind : ∀ p ∈ b, ceKey ce < ceKey p)
    (hname : ∀ p ∈ b, p.name ≠ ce.name) :
    (hasFileName ce false b).1 = true ↔ ∃ q ∈ a ++ b, FileConflict ce q := by
  constructor
  · intro hfound
    by_contra hnone
    push Not at hnone
    rw [hasFileName_of_none hce fun q hq => hnone q (List.mem_append_right a hq)] at hfound
    cases hfound
  · rintro ⟨q, hq, hconflict⟩
    by_contra hno
    obtain hq | hq := List.mem_append.mp hq
    · obtain hlt | ⟨heq, -⟩ := ceKey_lt.mp (hbefore q hq)
      · exact lt_asymm hlt hconflict.2.lt
      · exact hconflict.2.lt.ne' heq
    · have hsound := @hasFileName_sound ce false b hce hsorted hbehind (fun p hp hsame => absurd hsame (hname p hp))
        (.inl ((Bool.not_eq_true _).mp hno))
      rw [hasFileName_refusing] at hsound
      exact hsound q hq hconflict

lemma checkFileDirectoryConflict_iff (h : IndexInv (a ++ b)) (hbefore : ∀ p ∈ a, ceKey p < ceKey ce)
    (hbehind : ∀ p ∈ b, ceKey ce < ceKey p) (hname : ∀ p ∈ b, p.name ≠ ce.name) :
    (checkFileDirectoryConflict (a ++ b) ce a.length false).1 = true ↔ SeesConflict (a ++ b) ce := by
  unfold checkFileDirectoryConflict
  by_cases hce : Removed ce
  · rw [if_pos hce]
    refine iff_of_false (by simp) ?_
    rintro ⟨q, -, hconflict | ⟨hconflict, -⟩⟩
    · exact hconflict.1.2.1 hce
    · exact hconflict.1.2.1 hce
  · rw [if_neg hce, List.drop_left, List.take_left]
    dsimp only
    rw [hasFileName_refusing, Bool.or_eq_true, (hasDirName_refusing h hce).2,
      hasFileName_iff hce (List.pairwise_append.mp h.sorted).2.1 hbefore hbehind hname]
    constructor
    · rintro (⟨q, hq, hconflict⟩ | ⟨q, hq, hconflict⟩)
      · exact ⟨q, hq, .inl hconflict⟩
      · exact ⟨q, hq, .inr hconflict⟩
    · rintro ⟨q, hq, hconflict | hconflict⟩
      · exact .inl ⟨q, hq, hconflict⟩
      · exact .inr ⟨q, hq, hconflict⟩

def NotAllowed (ce : CacheEntry) (option : AddOption) (b : List CacheEntry) : Prop :=
  option.okToAdd = false ∧ (leftBehind ce b).length = b.length

lemma indexNameStagePos_neg {found : List CacheEntry} (h : (a ++ b).Pairwise (fun a b => ceKey a < ceKey b))
    (hbefore : ∀ p ∈ a, ceKey p < ceKey ce) (hbehind : ∀ p ∈ b, ceKey ce < ceKey p) (hsub : found.Sublist (a ++ b)) :
    indexNameStagePos found ce.name (ceStage ce) < 0 := by
  have hnew : ∀ p ∈ found, ceKey p ≠ ceKey ce := by
    intro p hp
    obtain hp | hp := List.mem_append.mp (hsub.subset hp)
    · exact (hbefore p hp).ne
    · exact (hbehind p hp).ne'
  obtain ⟨a', b', -, -, -, hpos⟩ := indexNameStagePos_insert (h.sublist hsub) hnew
  omega

lemma addIndexEntryWithCheck_new (h : IndexInv (a ++ b)) (hbefore : ∀ p ∈ a, ceKey p < ceKey ce)
    (hbehind : ∀ p ∈ b, ceKey ce < ceKey p) (hpos : addPos (a ++ b) ce = -(a.length : Int) - 1)
    (hname : ceStage ce = 0 → ∀ p ∈ leftBehind ce b, p.name ≠ ce.name) :
    addIndexEntryWithCheck verifyPath (a ++ b) ce option = (-1, a ++ leftBehind ce b) ∧
        (ceStage ce = 0 → NotAllowed ce option b ∨ Refused verifyPath (a ++ leftBehind ce b) ce option) ∨
      0 < (addIndexEntryWithCheck verifyPath (a ++ b) ce option).1 ∧
        (ceStage ce = 0 → ¬Refused verifyPath (a ++ leftBehind ce b) ce option) := by
  have hleft : (a ++ leftBehind ce b).Sublist (a ++ b) := List.Sublist.append_left leftBehind_sublist a
  have hinv := h.sublist hleft
  have hbehind' : ∀ p ∈ leftBehind ce b, ceKey ce < ceKey p := fun p hp => hbehind p (leftBehind_sublist.subset hp)
  have hslot : insertPos (-(a.length : Int) - 1) = a.length := by
    unfold insertPos
    omega
  unfold addIndexEntryWithCheck
  rw [hpos, if_neg (by omega), hslot]
  dsimp only
  rw [List.drop_left, List.take_left, ← leftBehind]
  by_cases hadd : (option.okToAdd || decide ((leftBehind ce b).length < b.length)) = false
  · rw [if_pos hadd]
    refine .inl ⟨rfl, fun _ => .inl ?_⟩
    rw [Bool.or_eq_false_iff, decide_eq_false_iff_not, not_lt] at hadd
    exact ⟨hadd.1, le_antisymm leftBehind_sublist.length_le hadd.2⟩
  rw [if_neg hadd]
  by_cases hverify : verifyPath ce.name ce.ceMode = false
  · rw [if_pos hverify]
    exact .inl ⟨rfl, fun _ => .inr (.inl hverify)⟩
  rw [if_neg hverify]
  by_cases hskip : option.skipDfCheck = true
  · rw [if_pos hskip]
    refine .inr ⟨by positivity, fun _ hrefused => ?_⟩
    obtain hrefused | ⟨hno, -⟩ := hrefused
    · exact hverify hrefused
    · rw [hskip] at hno
      cases hno
  rw [if_neg hskip]
  rw [Bool.not_eq_true] at hskip
  cases hreplace : option.okToReplace with
  | true =>
    have hnot : ¬Refused verifyPath (a ++ leftBehind ce b) ce option := by
      rintro (hrefused | ⟨-, hno, -⟩)
      · exact hverify hrefused
      · rw [hreplace] at hno
        cases hno
    have hsub := @checkFileDirectoryConflict_sublist _ _ ce hinv true
    cases hcheck : checkFileDirectoryConflict (a ++ leftBehind ce b) ce a.length true with
    | mk conflict found =>
      rw [hcheck] at hsub
      cases conflict with
      | false => exact .inr ⟨by positivity, fun _ => hnot⟩
      | true =>
        have hslot' : indexNameStagePos found ce.name (ceStage ce) < 0 :=
          indexNameStagePos_neg hinv.sorted hbefore hbehind' hsub
        refine .inr ⟨?_, fun _ => hnot⟩
        dsimp only
        rw [if_neg (by decide)]
        dsimp only
        omega
  | false =>
    have hkeep := @checkFileDirectoryConflict_refusing _ _ ce hinv
    have hsees := fun hzero => checkFileDirectoryConflict_iff hinv hbefore hbehind' (hname hzero)
    cases hcheck : checkFileDirectoryConflict (a ++ leftBehind ce b) ce a.length false with
    | mk conflict found =>
      rw [hcheck] at hkeep hsees
      obtain rfl : found = a ++ leftBehind ce b := hkeep
      cases conflict with
      | false =>
        refine .inr ⟨by positivity, fun hzero hrefused => ?_⟩
        obtain hrefused | ⟨-, -, hconflict⟩ := hrefused
        · exact hverify hrefused
        · have := (hsees hzero).mpr hconflict
          cases this
      | true => exact .inl ⟨by simp, fun hzero => .inr (.inr ⟨hskip, hreplace, (hsees hzero).mp rfl⟩)⟩

/-- The unmerged entry `a` of stage 2 and the merged entry `a/b`. -/
def unmergedFile : List CacheEntry := [indexEntry [0x61] 0x2000, indexEntry [0x61, slash, 0x62] 0]

lemma indexInv_unmergedFile : IndexInv unmergedFile where
  sorted := by
    refine List.pairwise_pair.mpr (ceKey_lt.mpr (.inl ?_))
    decide
  merged := by decide +kernel
  conflict := by
    unfold SameTree
    decide +kernel

end GitCore.Index
