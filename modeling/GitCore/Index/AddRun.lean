import GitCore.Index.AddSpec

/-!
# Runs of index operations

From the empty index every run whose additions meet `AddSound` leads to an index in order and without
conflicts.
-/

namespace GitCore.Index

variable {verifyPath : List UInt8 → UInt32 → Bool} {cache a b : List CacheEntry} {ce : CacheEntry}
  {option : AddOption}

def S_IFDIR : UInt32 := 0o040000

def remaining (cache : List CacheEntry) (ce : CacheEntry) : List CacheEntry :=
  if ceStage ce = 0 then cache.filter (fun p => p.name ≠ ce.name) else cache

def Accepted (verifyPath : List UInt8 → UInt32 → Bool) (cache : List CacheEntry) (ce : CacheEntry)
    (option : AddOption) : Prop :=
  verifyPath ce.name ce.ceMode = true ∧ (option.okToAdd = true ∨ ceStage ce = 0 ∧ ∃ p ∈ cache, p.name = ce.name)

structure AddSound (verifyPath : List UInt8 → UInt32 → Bool) (cache : List CacheEntry) (ce : CacheEntry)
    (option : AddOption) : Prop where
  /-- No sparse directory. -/
  full : ce.ceMode ≠ S_IFDIR
  /-- An entry that was marked for removal is replaced without a check. -/
  replaced : option.newOnly = false → ∀ p ∈ cache, ceKey p = ceKey ce → Removed p →
    ∀ q ∈ cache, ¬FileConflict ce q ∧ ¬DirConflict ce q
  /-- An unmerged entry does not take the place of a merged one. -/
  unmerged : Accepted verifyPath cache ce option → ceStage ce ≠ 0 → ∀ p ∈ cache, p.name = ce.name → ceStage p ≠ 0
  /-- The search of `has_file_name` ends at a higher stage of the name. -/
  higherStage : Accepted verifyPath cache ce option → ceStage ce ≠ 0 →
    ∀ p ∈ cache, p.name = ce.name → ceStage ce < ceStage p → ∀ q ∈ cache, ¬FileConflict ce q
  /-- `has_dir_name` looks only at the last entry when the new one is appended. -/
  appended : Accepted verifyPath cache ce option → LastTells (remaining cache ce) ce

lemma addPos_split (h : cache.Pairwise (fun a b => ceKey a < ceKey b)) (ce : CacheEntry) :
    (∃ a p b, cache = a ++ p :: b ∧ ceKey p = ceKey ce ∧ addPos cache ce = a.length) ∨
      ∃ a b, cache = a ++ b ∧ (∀ p ∈ a, ceKey p < ceKey ce) ∧ (∀ p ∈ b, ceKey ce < ceKey p) ∧
        addPos cache ce = -(a.length : Int) - 1 := by
  have hsearch := indexNameStagePos_split h ce.name (ceStage ce)
  have hfound : addPos cache ce = indexNameStagePos cache ce.name (ceStage ce) ∨
      (∀ p ∈ cache, ceKey p < ceKey ce) ∧ addPos cache ce = -(cache.length : Int) - 1 := by
    unfold addPos
    cases hlast : cache.getLast? with
    | none => exact .inl rfl
    | some last =>
      dsimp only
      split_ifs with hpos
      · refine .inr ⟨fun p hp => ceKey_lt.mpr (.inl ?_), rfl⟩
        exact (le_getLast h hlast p hp).trans_lt (strcmpOffset_pos hpos)
      · exact .inl rfl
  obtain hpos | ⟨hbefore, hpos⟩ := hfound
  · rw [hpos]
    obtain ⟨a, p, b, hcache, hname, hstage, hpos⟩ | hsplit := hsearch
    · exact .inl ⟨a, p, b, hcache, ceKey_eq.mpr ⟨hname, hstage⟩, hpos⟩
    · exact .inr hsplit
  · exact .inr ⟨cache, [], (List.append_nil _).symm, hbefore, fun p hp => absurd hp List.not_mem_nil, hpos⟩

lemma IndexInv.insert (h : IndexInv (a ++ b)) (hbefore : ∀ p ∈ a, ceKey p < ceKey ce)
    (hbehind : ∀ p ∈ b, ceKey ce < ceKey p)
    (hmerged : ∀ p ∈ a ++ b, p.name = ce.name → ceStage ce ≠ 0 ∧ ceStage p ≠ 0)
    (hconflict : ∀ q ∈ a ++ b, ¬FileConflict ce q ∧ ¬DirConflict ce q) : IndexInv (a ++ ce :: b) := by
  have hmem : ∀ p, p ∈ a ++ ce :: b ↔ p = ce ∨ p ∈ a ++ b := by
    intro p
    simp only [List.mem_append, List.mem_cons]
    tauto
  have hsorted := List.pairwise_append.mp h.sorted
  refine ⟨?_, fun p hp q hq hname hzero => ?_, fun p hp q hq hsame hdir => ?_⟩
  · refine List.pairwise_append.mpr ⟨hsorted.1, List.pairwise_cons.mpr ⟨hbehind, hsorted.2.1⟩, fun p hp q hq => ?_⟩
    obtain rfl | hq := List.mem_cons.mp hq
    · exact hbefore p hp
    · exact hsorted.2.2 p hp q hq
  · obtain rfl | hold := (hmem p).mp hp
    · obtain rfl | hold := (hmem q).mp hq
      · exact hzero
      · exact absurd hzero (hmerged q hold hname.symm).1
    · obtain rfl | hold' := (hmem q).mp hq
      · exact absurd hzero (hmerged p hold hname).2
      · exact h.merged p hold q hold' hname hzero
  · obtain rfl | hold := (hmem p).mp hp
    · obtain rfl | hold := (hmem q).mp hq
      · exact lt_irrefl _ hdir.length_lt
      · exact (hconflict q hold).1 ⟨hsame, hdir⟩
    · obtain rfl | hold' := (hmem q).mp hq
      · exact (hconflict p hold).2 ⟨⟨hsame.1.symm, hsame.2.2, hsame.2.1⟩, hdir⟩
      · exact h.conflict p hold q hold' hsame hdir

lemma IndexInv.replace {p : CacheEntry} (h : IndexInv (a ++ p :: b)) (hkey : ceKey p = ceKey ce)
    (hconflict : Removed p → ∀ q ∈ a ++ p :: b, ¬FileConflict ce q ∧ ¬DirConflict ce q) :
    IndexInv (a ++ ce :: b) := by
  obtain ⟨hname, hstage⟩ := ceKey_eq.mp hkey
  have hsub : (a ++ b).Sublist (a ++ p :: b) := List.Sublist.append_left (List.sublist_cons_self p b) a
  have hsorted := h.sorted
  rw [List.pairwise_append, List.pairwise_cons] at hsorted
  have hbefore : ∀ q ∈ a, ceKey q < ceKey ce := by
    intro q hq
    rw [← hkey]
    exact hsorted.2.2 q hq p (List.mem_cons_self ..)
  have hbehind : ∀ q ∈ b, ceKey ce < ceKey q := by
    intro q hq
    rw [← hkey]
    exact hsorted.2.1.1 q hq
  have hp : p ∈ a ++ p :: b := by simp
  refine (h.sublist hsub).insert hbefore hbehind (fun q hq hsame => ?_) fun q hq => ?_
  · have hother : ceStage q ≠ ceStage ce := by
      intro heq
      have hkeys := ceKey_eq.mpr ⟨hsame, heq⟩
      obtain hq | hq := List.mem_append.mp hq
      · exact (hbefore q hq).ne hkeys
      · exact (hbehind q hq).ne' hkeys
    constructor
    · intro hzero
      have := h.merged p hp q (hsub.subset hq) (hname.trans hsame.symm) (hstage.trans hzero)
      exact hother (this.trans hzero.symm)
    · intro hzero
      have := h.merged q (hsub.subset hq) p hp (hsame.trans hname.symm) hzero
      exact hother (hzero.trans (this.symm.trans hstage))
  · by_cases hremoved : Removed p
    · exact hconflict hremoved q (hsub.subset hq)
    · refine ⟨fun hfile => ?_, fun hdir => ?_⟩
      · refine h.conflict p hp q (hsub.subset hq) ⟨hstage.trans hfile.1.1, hremoved, hfile.1.2.2⟩ ?_
        rw [hname]
        exact hfile.2
      · refine h.conflict q (hsub.subset hq) p hp ⟨(hstage.trans hdir.1.1).symm, hdir.1.2.2, hremoved⟩ ?_
        rw [hname]
        exact hdir.2

lemma dropWhile_name (hsorted : b.Pairwise (fun a b => ceKey a < ceKey b)) (hbehind : ∀ p ∈ b, ceKey ce < ceKey p) :
    b.dropWhile (fun p => p.name = ce.name) = b.filter (fun p => p.name ≠ ce.name) := by
  induction b with
  | nil => rfl
  | cons p b ih =>
    obtain ⟨hfirst, hsorted⟩ := List.pairwise_cons.mp hsorted
    by_cases hname : p.name = ce.name
    · rw [List.dropWhile_cons_of_pos (by simpa using hname), List.filter_cons_of_neg (by simpa using hname)]
      exact ih hsorted fun q hq => hbehind q (List.mem_cons_of_mem p hq)
    · rw [List.dropWhile_cons_of_neg (by simpa using hname), eq_comm, List.filter_eq_self]
      have hlt : ce.name < p.name := by
        obtain hlt | ⟨heq, -⟩ := ceKey_lt.mp (hbehind p (List.mem_cons_self ..))
        · exact hlt
        · exact absurd heq.symm hname
      intro q hq
      obtain rfl | hq := List.mem_cons.mp hq
      · simpa using hname
      · have hle : p.name ≤ q.name := by
          obtain hlt | ⟨heq, -⟩ := ceKey_lt.mp (hfirst q hq)
          · exact hlt.le
          · exact heq.le
        simpa using (hlt.trans_le hle).ne'

def leftBehind (ce : CacheEntry) (b : List CacheEntry) : List CacheEntry :=
  if ceStage ce = 0 then b.dropWhile (fun p => p.name = ce.name) else b

lemma leftBehind_sublist : (leftBehind ce b).Sublist b := by
  unfold leftBehind
  split_ifs
  · exact List.dropWhile_sublist _
  · exact .refl _

lemma remaining_eq (hsorted : b.Pairwise (fun a b => ceKey a < ceKey b)) (hbefore : ∀ p ∈ a, ceKey p < ceKey ce)
    (hbehind : ∀ p ∈ b, ceKey ce < ceKey p) : remaining (a ++ b) ce = a ++ leftBehind ce b := by
  unfold remaining leftBehind
  split_ifs with hstage
  · have hother : a.filter (fun p => p.name ≠ ce.name) = a := by
      refine List.filter_eq_self.mpr fun p hp => ?_
      obtain hlt | ⟨-, hlt⟩ := ceKey_lt.mp (hbefore p hp)
      · simpa using hlt.ne
      · rw [hstage] at hlt
        exact absurd hlt (Nat.not_lt_zero _)
    rw [List.filter_append, hother, dropWhile_name hsorted hbehind]
  · rfl

lemma accepted_of_left (hsorted : b.Pairwise (fun a b => ceKey a < ceKey b)) (hbehind : ∀ p ∈ b, ceKey ce < ceKey p)
    (hadd : (option.okToAdd || decide ((leftBehind ce b).length < b.length)) = true)
    (hverify : verifyPath ce.name ce.ceMode = true) : Accepted verifyPath (a ++ b) ce option := by
  refine ⟨hverify, ?_⟩
  rw [Bool.or_eq_true, decide_eq_true_eq] at hadd
  refine hadd.imp_right fun hless => ?_
  unfold leftBehind at hless
  split_ifs at hless with hstage
  · refine ⟨hstage, ?_⟩
    by_contra hnone
    push Not at hnone
    rw [dropWhile_name hsorted hbehind, List.filter_eq_self.mpr] at hless
    · exact lt_irrefl _ hless
    · intro p hp
      simpa using hnone p (List.mem_append_right a hp)
  · exact absurd hless (lt_irrefl _)

lemma insertIdx_append (a b : List CacheEntry) (ce : CacheEntry) : (a ++ b).insertIdx a.length ce = a ++ ce :: b := by
  induction a with
  | nil => rfl
  | cons p a ih => exact congrArg (p :: ·) ih

lemma indexNameStagePos_insert (h : cache.Pairwise (fun a b => ceKey a < ceKey b))
    (hnew : ∀ p ∈ cache, ceKey p ≠ ceKey ce) :
    ∃ a b, cache = a ++ b ∧ (∀ p ∈ a, ceKey p < ceKey ce) ∧ (∀ p ∈ b, ceKey ce < ceKey p) ∧
      indexNameStagePos cache ce.name (ceStage ce) = -(a.length : Int) - 1 := by
  obtain ⟨a, p, b, rfl, hname, hstage, -⟩ | hsplit := indexNameStagePos_split h ce.name (ceStage ce)
  · exact absurd (ceKey_eq.mpr ⟨hname, hstage⟩) (hnew p (by simp))
  · exact hsplit

lemma addIndexEntryWithCheck_cases (h : IndexInv (a ++ b)) (hbefore : ∀ p ∈ a, ceKey p < ceKey ce)
    (hbehind : ∀ p ∈ b, ceKey ce < ceKey p) (hpos : addPos (a ++ b) ce = -(a.length : Int) - 1)
    (hdf : option.skipDfCheck = false) (hsound : AddSound verifyPath (a ++ b) ce option) :
    let result := addIndexEntryWithCheck verifyPath (a ++ b) ce option
    result.1 ≤ 0 ∧ result.2.Sublist (a ++ b) ∨
      ∃ a' b', result = (((a'.length + 1 : Nat) : Int), a' ++ b') ∧ (a' ++ b').Sublist (a ++ leftBehind ce b) ∧
        (∀ p ∈ a', ceKey p < ceKey ce) ∧ (∀ p ∈ b', ceKey ce < ceKey p) ∧
        Accepted verifyPath (a ++ b) ce option ∧ ∀ q ∈ a' ++ b', ¬FileConflict ce q ∧ ¬DirConflict ce q := by
  have hleft : (a ++ leftBehind ce b).Sublist (a ++ b) := List.Sublist.append_left leftBehind_sublist a
  have hsortedB := (List.pairwise_append.mp h.sorted).2.1
  have hbehind' : ∀ p ∈ leftBehind ce b, ceKey ce < ceKey p := fun p hp => hbehind p (leftBehind_sublist.subset hp)
  have hslot : insertPos (-(a.length : Int) - 1) = a.length := by
    unfold insertPos
    omega
  unfold addIndexEntryWithCheck
  rw [hpos, if_neg (by omega), hslot, hdf]
  dsimp only
  rw [List.drop_left, List.take_left, ← leftBehind]
  by_cases hadd : (option.okToAdd || decide ((leftBehind ce b).length < b.length)) = false
  · rw [if_pos hadd]
    exact .inl ⟨(by decide : (-1 : Int) ≤ 0), hleft⟩
  rw [if_neg hadd]
  by_cases hverify : verifyPath ce.name ce.ceMode = false
  · rw [if_pos hverify]
    exact .inl ⟨(by decide : (-1 : Int) ≤ 0), hleft⟩
  rw [if_neg hverify, if_neg Bool.false_ne_true]
  have haccepted : Accepted verifyPath (a ++ b) ce option :=
    accepted_of_left hsortedB hbehind ((Bool.not_eq_false _).mp hadd) ((Bool.not_eq_false _).mp hverify)
  by_cases hce : Removed ce
  · -- an entry that goes away has no conflicts
    unfold checkFileDirectoryConflict
    rw [if_pos hce]
    exact .inr ⟨a, leftBehind ce b, by push_cast; rfl, .refl _, hbefore, hbehind', haccepted,
      fun q _ => ⟨fun hfile => hfile.1.2.1 hce, fun hdir => hdir.1.2.1 hce⟩⟩
  have hseen : ∀ p ∈ leftBehind ce b, p.name = ce.name → ∀ q ∈ leftBehind ce b, ¬FileConflict ce q := by
    intro p hp hname q hq
    have hmem := remaining_eq hsortedB hbefore hbehind
    by_cases hstage : ceStage ce = 0
    · have hrem : p ∈ remaining (a ++ b) ce := by
        rw [hmem]
        exact List.mem_append_right a hp
      rw [remaining, if_pos hstage, List.mem_filter] at hrem
      exact absurd hname (by simpa using hrem.2)
    · refine hsound.higherStage haccepted hstage p (List.mem_append_right a (leftBehind_sublist.subset hp)) hname ?_ q
        (List.mem_append_right a (leftBehind_sublist.subset hq))
      obtain hlt | ⟨-, hlt⟩ := ceKey_lt.mp (hbehind' p hp)
      · exact absurd hname hlt.ne'
      · exact hlt
  have hlast : LastTells (a ++ leftBehind ce b) ce := by
    rw [← remaining_eq hsortedB hbefore hbehind]
    exact hsound.appended haccepted
  obtain ⟨hsub, hkeep, hfree⟩ := @checkFileDirectoryConflict_spec _ option.okToReplace _ _
    (h.sublist hleft) hce hbefore hbehind' hseen hlast
  cases hcheck : checkFileDirectoryConflict (a ++ leftBehind ce b) ce a.length option.okToReplace with
  | mk conflict found =>
    rw [hcheck] at hsub hkeep hfree
    cases conflict with
    | false =>
      obtain rfl := hkeep rfl
      exact .inr ⟨a, leftBehind ce b, by push_cast; rfl, .refl _, hbefore, hbehind', haccepted, hfree (.inl rfl)⟩
    | true =>
      dsimp only at hsub hfree ⊢
      by_cases hreplace : option.okToReplace = false
      · rw [if_pos hreplace]
        exact .inl ⟨(by decide : (-1 : Int) ≤ 0), hsub.trans hleft⟩
      · rw [if_neg hreplace]
        have hnew : ∀ p ∈ found, ceKey p ≠ ceKey ce := by
          intro p hp
          obtain hp | hp := List.mem_append.mp (hsub.subset hp)
          · exact (hbefore p hp).ne
          · exact (hbehind' p hp).ne'
        obtain ⟨a', b', rfl, hbefore', hbehind'', hslot'⟩ :=
          indexNameStagePos_insert (h.sorted.sublist (hsub.trans hleft)) hnew
        refine .inr ⟨a', b', ?_, hsub, hbefore', hbehind'', haccepted, hfree (.inr (by simpa using hreplace))⟩
        rw [hslot']
        push_cast
        congr 1
        omega

theorem addIndexEntry_inv (h : IndexInv cache) (hdf : option.skipDfCheck = false)
    (happend : option.justAppend = false) (hsound : AddSound verifyPath cache ce option) :
    IndexInv (addIndexEntry verifyPath cache ce option).2 := by
  unfold addIndexEntry
  rw [happend, if_neg Bool.false_ne_true]
  dsimp only
  obtain ⟨a, p, b, rfl, hkey, hpos⟩ | ⟨a, b, rfl, hbefore, hbehind, hpos⟩ := addPos_split h.sorted ce
  · unfold addIndexEntryWithCheck
    rw [hpos, if_pos (Int.natCast_nonneg _), Int.toNat_natCast]
    dsimp only
    rw [if_pos le_rfl]
    cases hnew : option.newOnly with
    | true => exact h
    | false =>
      rw [if_neg Bool.false_ne_true, List.set_append_right a.length ce le_rfl, Nat.sub_self, List.set_cons_zero]
      exact h.replace hkey fun hremoved => hsound.replaced hnew p (by simp) hkey hremoved
  · obtain ⟨hret, hsub⟩ | ⟨a', b', hresult, hsub, hbefore', hbehind', haccepted, hfree⟩ :=
      addIndexEntryWithCheck_cases h hbefore hbehind hpos hdf hsound
    · rw [if_pos hret]
      exact h.sublist hsub
    · rw [hresult]
      dsimp only
      rw [if_neg (by omega), show ((a'.length + 1 : Nat) - 1 : Int).toNat = a'.length by omega, insertIdx_append]
      have hleft : (a ++ leftBehind ce b).Sublist (a ++ b) := List.Sublist.append_left leftBehind_sublist a
      refine (h.sublist (hsub.trans hleft)).insert hbefore' hbehind' (fun p hp hname => ?_) hfree
      by_cases hstage : ceStage ce = 0
      · have hrem : p ∈ remaining (a ++ b) ce := by
          rw [remaining_eq (List.pairwise_append.mp h.sorted).2.1 hbefore hbehind]
          exact hsub.subset hp
        rw [remaining, if_pos hstage, List.mem_filter] at hrem
        exact absurd hname (by simpa using hrem.2)
      · exact ⟨hstage, hsound.unmerged haccepted hstage p ((hsub.trans hleft).subset hp) hname⟩

lemma removeFileFromIndex_sublist (cache : List CacheEntry) (path : List UInt8) :
    (removeFileFromIndex cache path).Sublist cache := by
  unfold removeFileFromIndex
  dsimp only
  generalize (if indexNameStagePos cache path 0 < 0 then _ else _) = pos
  have hsub := List.Sublist.append_left (List.dropWhile_sublist (l := cache.drop pos) (fun ce => decide (ce.name = path)))
    (cache.take pos)
  rwa [List.take_append_drop] at hsub

/-- The indexes that additions, of entries and options that meet `Ok`, and removals lead to from the empty
index. -/
inductive IndexRun (verifyPath : List UInt8 → UInt32 → Bool) (Ok : List CacheEntry → CacheEntry → AddOption → Prop) :
    List CacheEntry → Prop
  | empty : IndexRun verifyPath Ok []
  | add {index : List CacheEntry} (h : IndexRun verifyPath Ok index) (ce : CacheEntry) (option : AddOption)
      (hdf : option.skipDfCheck = false) (happend : option.justAppend = false) (hok : Ok index ce option) :
      IndexRun verifyPath Ok (addIndexEntry verifyPath index ce option).2
  | removeAt {index : List CacheEntry} (h : IndexRun verifyPath Ok index) (pos : Nat) :
      IndexRun verifyPath Ok (removeIndexEntryAt index pos)
  | removeFile {index : List CacheEntry} (h : IndexRun verifyPath Ok index) (path : List UInt8) :
      IndexRun verifyPath Ok (removeFileFromIndex index path)
  | removeMarked {index : List CacheEntry} (h : IndexRun verifyPath Ok index) :
      IndexRun verifyPath Ok (removeMarkedCacheEntries index)

/-- Where the checks see every conflict, the index stays in order and without conflicts. -/
theorem indexRun_inv (h : IndexRun verifyPath (AddSound verifyPath) cache) : IndexInv cache := by
  induction h with
  | empty => exact ⟨.nil, by simp, by simp⟩
  | add h ce option hdf happend hok ih => exact addIndexEntry_inv ih hdf happend hok
  | removeAt h pos ih => exact ih.sublist (List.eraseIdx_sublist ..)
  | removeFile h path ih => exact ih.sublist (removeFileFromIndex_sublist ..)
  | removeMarked h ih => exact ih.sublist List.filter_sublist

def indexEntry (name : List UInt8) (ceFlags : UInt32) : CacheEntry :=
  ⟨⟨0, 0, 0, 0, 0, 0, 0, 0, 0⟩, 0o100644, ceFlags, List.replicate 20 1, name⟩

def addAll (entries : List CacheEntry) : List CacheEntry :=
  entries.foldl (fun cache ce => (addIndexEntry (fun _ _ => true) cache ce ⟨true, false, false, false, false⟩).2) []

lemma addAll_run (entries : List CacheEntry) : IndexRun (fun _ _ => true) (fun _ _ _ => True) (addAll entries) := by
  induction entries using List.reverseRecOn with
  | nil => exact .empty
  | append_singleton entries ce ih =>
    unfold addAll
    rw [List.foldl_append]
    exact ih.add ce _ rfl rfl trivial

theorem indexRun_inv_two : IndexInv (addIndexEntry (fun _ _ => true)
    (addIndexEntry (fun _ _ => true) [] (indexEntry [0x61] 0x1000) ⟨true, false, false, false, false⟩).2
    (indexEntry [0x61, slash, 0x62] 0) ⟨true, true, false, false, false⟩).2 := by
  have hfirst : AddSound (fun _ _ => true) [] (indexEntry [0x61] 0x1000) ⟨true, false, false, false, false⟩ := by
    refine ⟨by decide, by simp, by simp, by simp, fun _ last hlast => ?_⟩
    simp [remaining] at hlast
  have hindex : (addIndexEntry (fun _ _ => true) [] (indexEntry [0x61] 0x1000) ⟨true, false, false, false, false⟩).2 =
      [indexEntry [0x61] 0x1000] := by decide +kernel
  refine indexRun_inv (.add (.add .empty _ _ rfl rfl hfirst) _ _ rfl rfl ?_)
  rw [hindex]
  have hmerged : ceStage (indexEntry [0x61, slash, 0x62] 0) = 0 := by decide
  refine ⟨by decide, fun _ p hp hkey => ?_, fun _ hstage => absurd hmerged hstage,
    fun _ hstage => absurd hmerged hstage, fun _ last hlast happends => ?_⟩
  · rw [List.mem_singleton.mp hp, ceKey_eq] at hkey
    exact absurd hkey (by decide)
  · have hlast' : some last = some (indexEntry [0x61] 0x1000) := hlast.symm.trans (by decide)
    rw [Option.some.inj hlast'] at happends
    exact absurd happends (by decide)

/-- Conflicts that each of the checks misses: when an entry that was marked for removal is replaced, behind
a higher stage of the name, and behind a last entry of another stage; and a merged entry next to an
unmerged one. -/
theorem indexRun_conflict :
    (IndexRun (fun _ _ => true) (fun _ _ _ => True)
        (addAll [indexEntry [0x61] CE_REMOVE, indexEntry [0x61, slash, 0x62] 0, indexEntry [0x61] 0]) ∧
      ¬IndexInv (addAll [indexEntry [0x61] CE_REMOVE, indexEntry [0x61, slash, 0x62] 0, indexEntry [0x61] 0])) ∧
    (IndexRun (fun _ _ => true) (fun _ _ _ => True)
        (addAll [indexEntry [0x61] 0x2000, indexEntry [0x61, slash, 0x62] 0x1000, indexEntry [0x61] 0x1000]) ∧
      ¬IndexInv (addAll [indexEntry [0x61] 0x2000, indexEntry [0x61, slash, 0x62] 0x1000, indexEntry [0x61] 0x1000])) ∧
    (IndexRun (fun _ _ => true) (fun _ _ _ => True)
        (addAll [indexEntry [0x61] 0, indexEntry [0x61, slash, 0x62] 0x2000, indexEntry [0x61, slash, 0x63] 0]) ∧
      ¬IndexInv (addAll [indexEntry [0x61] 0, indexEntry [0x61, slash, 0x62] 0x2000, indexEntry [0x61, slash, 0x63] 0])) ∧
    IndexRun (fun _ _ => true) (fun _ _ _ => True) (addAll [indexEntry [0x61] 0, indexEntry [0x61] 0x2000]) ∧
      ¬IndexInv (addAll [indexEntry [0x61] 0, indexEntry [0x61] 0x2000]) := by
  refine ⟨⟨addAll_run _, fun h => ?_⟩, ⟨addAll_run _, fun h => ?_⟩, ⟨addAll_run _, fun h => ?_⟩, addAll_run _,
    fun h => ?_⟩
  · exact h.conflict (indexEntry [0x61] 0) (by decide +kernel) (indexEntry [0x61, slash, 0x62] 0) (by decide +kernel)
      (by unfold SameTree; decide) (by decide)
  · exact h.conflict (indexEntry [0x61] 0x1000) (by decide +kernel) (indexEntry [0x61, slash, 0x62] 0x1000)
      (by decide +kernel) (by unfold SameTree; decide) (by decide)
  · exact h.conflict (indexEntry [0x61] 0) (by decide +kernel) (indexEntry [0x61, slash, 0x63] 0) (by decide +kernel)
      (by unfold SameTree; decide) (by decide)
  · have hstage := h.merged (indexEntry [0x61] 0) (by decide +kernel) (indexEntry [0x61] 0x2000) (by decide +kernel)
      rfl (by decide)
    exact absurd hstage (by decide)

end GitCore.Index
