import GitCore.Index.Add
import Mathlib.Data.Prod.Lex

/-!
# The order of the index and its conflicts

`IndexInv` says that an index is in order and without conflicts. `CheckSound` is what a step must avoid
for the checks to see every conflict; without it each of them can miss one.
-/

namespace GitCore.Index

def ceKey (ce : CacheEntry) : List UInt8 ×ₗ Nat := toLex (ce.name, ceStage ce)

lemma ceKey_lt {a b : CacheEntry} : ceKey a < ceKey b ↔ a.name < b.name ∨ a.name = b.name ∧ ceStage a < ceStage b := by
  simp [ceKey, Prod.Lex.toLex_lt_toLex]

lemma ceKey_eq {a b : CacheEntry} : ceKey a = ceKey b ↔ a.name = b.name ∧ ceStage a = ceStage b := by
  simp [ceKey]

def SameTree (a b : CacheEntry) : Prop := ceStage a = ceStage b ∧ ¬Removed a ∧ ¬Removed b

structure IndexInv (cache : List CacheEntry) : Prop where
  sorted : cache.Pairwise (fun a b => ceKey a < ceKey b)
  merged : ∀ a ∈ cache, ∀ b ∈ cache, a.name = b.name → ceStage a = 0 → ceStage b = 0
  conflict : ∀ a ∈ cache, ∀ b ∈ cache, SameTree a b → ¬LeadingDir slash a.name b.name

lemma IndexInv.sublist {cache cache' : List CacheEntry} (h : IndexInv cache) (hsub : cache'.Sublist cache) :
    IndexInv cache' where
  sorted := h.sorted.sublist hsub
  merged a ha b hb := h.merged a (hsub.subset ha) b (hsub.subset hb)
  conflict a ha b hb := h.conflict a (hsub.subset ha) b (hsub.subset hb)

section

variable {s t : List UInt8}

lemma nameCompare_neg : nameCompare s t < 0 ↔ s < t := by
  induction s, t using nameCompare.induct with
  | case1 => simp [nameCompare]
  | case2 b t => simp [nameCompare]
  | case3 a s => simp [nameCompare]
  | case4 a s b t hlt => simp [nameCompare, List.cons_lt_cons_iff, hlt]
  | case5 a s b t hlt hgt =>
    simp [nameCompare, List.cons_lt_cons_iff, hlt, hgt, hgt.ne']
  | case6 a s b t hlt hgt ih =>
    obtain rfl : a = b := le_antisymm (not_lt.mp hgt) (not_lt.mp hlt)
    simp [nameCompare, ih]

lemma nameCompare_zero : nameCompare s t = 0 ↔ s = t := by
  induction s, t using nameCompare.induct with
  | case1 => simp [nameCompare]
  | case2 b t => simp [nameCompare]
  | case3 a s => simp [nameCompare]
  | case4 a s b t hlt => simp [nameCompare, hlt, hlt.ne]
  | case5 a s b t hlt hgt => simp [nameCompare, hlt, hgt, hgt.ne']
  | case6 a s b t hlt hgt ih =>
    obtain rfl : a = b := le_antisymm (not_lt.mp hgt) (not_lt.mp hlt)
    simp [nameCompare, ih]

lemma strcmpOffset_pos (h : 0 < (strcmpOffset s t).1) : t < s := by
  induction s, t using strcmpOffset.induct with
  | case1 => simp [strcmpOffset] at h
  | case2 b t =>
    rw [strcmpOffset] at h
    omega
  | case3 a s => simp
  | case4 s b t _ _ _ ih =>
    simp only [strcmpOffset, if_true] at h
    exact List.cons_lt_cons_iff.mpr (.inr ⟨rfl, ih h⟩)
  | case5 a s b t hne =>
    simp only [strcmpOffset, if_neg hne] at h
    refine List.cons_lt_cons_iff.mpr (.inl ?_)
    rw [UInt8.lt_iff_toNat_lt]
    omega

lemma strcmpOffset_dir {d : List UInt8} (hpos : 0 < (strcmpOffset s t).1)
    (hslash : s[(strcmpOffset s t).2]? ≠ some slash) (hdir : LeadingDir slash d s) : LeadingDir slash d t ∨ t < d := by
  induction s, t using strcmpOffset.induct generalizing d with
  | case1 => simp [strcmpOffset] at hpos
  | case2 b t =>
    rw [strcmpOffset] at hpos
    omega
  | case3 a s =>
    cases d with
    | nil => simp_all [strcmpOffset, LeadingDir]
    | cons c d => exact .inr (List.nil_lt_cons c d)
  | case4 s b t _ _ _ ih =>
    simp only [strcmpOffset, if_true] at hpos hslash
    cases d with
    | nil => simp_all [LeadingDir]
    | cons c d =>
      obtain ⟨rfl, hrest⟩ := List.cons_prefix_cons.mp hdir
      obtain hin | hlt := ih hpos (by simpa using hslash) hrest
      · exact .inl (List.cons_prefix_cons.mpr ⟨rfl, hin⟩)
      · exact .inr (List.cons_lt_cons_iff.mpr (.inr ⟨rfl, hlt⟩))
  | case5 a s b t hne =>
    cases d with
    | nil => simp_all [strcmpOffset, LeadingDir]
    | cons c d =>
      obtain ⟨rfl, -⟩ := List.cons_prefix_cons.mp hdir
      have := strcmpOffset_pos hpos
      rw [List.cons_lt_cons_iff] at this
      obtain hlt | ⟨rfl, -⟩ := this
      · exact .inr (List.cons_lt_cons_iff.mpr (.inl hlt))
      · exact absurd rfl hne

end

lemma cacheNameStageCompare_keys (name : List UInt8) (stage : Nat) (ce : CacheEntry) :
    (cacheNameStageCompare name stage ce.name (ceStage ce) < 0 ↔ toLex (name, stage) < ceKey ce) ∧
      (cacheNameStageCompare name stage ce.name (ceStage ce) = 0 ↔ toLex (name, stage) = ceKey ce) := by
  have hneg := @nameCompare_neg name ce.name
  have hzero := @nameCompare_zero name ce.name
  unfold cacheNameStageCompare ceKey
  rw [Prod.Lex.toLex_lt_toLex, toLex_inj, Prod.mk.injEq]
  dsimp only
  split_ifs with hcmp hlt hgt
  · have hne : name ≠ ce.name := fun h => hcmp (hzero.mpr h)
    simp [hneg, hcmp, hne]
  · simp [hzero.mp (not_not.mp hcmp), hlt, hlt.ne]
  · simp [hzero.mp (not_not.mp hcmp), hgt.le, hgt.ne']
  · have hstage : stage = ceStage ce := le_antisymm (not_lt.mp hgt) (not_lt.mp hlt)
    simp [hzero.mp (not_not.mp hcmp), hstage]

lemma indexNameStagePos_split {cache : List CacheEntry} (h : cache.Pairwise (fun a b => ceKey a < ceKey b))
    (name : List UInt8) (stage : Nat) :
    (∃ a p b, cache = a ++ p :: b ∧ p.name = name ∧ ceStage p = stage ∧
      indexNameStagePos cache name stage = a.length) ∨
    ∃ a b, cache = a ++ b ∧ (∀ p ∈ a, ceKey p < toLex (name, stage)) ∧ (∀ p ∈ b, toLex (name, stage) < ceKey p) ∧
      indexNameStagePos cache name stage = -(a.length : Int) - 1 := by
  unfold indexNameStagePos
  refine Or.imp ?_ id (binarySearch_split h fun i p hp => ?_)
  · rintro ⟨a, p, b, hcache, hkey, hpos⟩
    obtain ⟨hname, hstage⟩ := Prod.mk.inj (toLex_inj.mp hkey)
    exact ⟨a, p, b, hcache, hname, hstage, hpos⟩
  · simp only [hp]
    exact cacheNameStageCompare_keys name stage p

def FileConflict (ce q : CacheEntry) : Prop := SameTree ce q ∧ LeadingDir slash ce.name q.name

/-- The file `q` would have `ce` in it. -/
def DirConflict (ce q : CacheEntry) : Prop := SameTree ce q ∧ LeadingDir slash q.name ce.name

section

variable {ce : CacheEntry} {okToReplace : Bool} {cache : List CacheEntry}

lemma hasFileName_sublist : (hasFileName ce okToReplace cache).2.Sublist cache := by
  induction cache with
  | nil => exact .slnil
  | cons p cache ih =>
    rw [hasFileName]
    split_ifs
    · exact .refl _
    · exact ih.cons_cons p
    · exact .refl _
    · exact ih.cons p

lemma hasFileName_keep (h : (hasFileName ce okToReplace cache).1 = false) :
    (hasFileName ce okToReplace cache).2 = cache := by
  induction cache with
  | nil => rfl
  | cons p cache ih =>
    rw [hasFileName] at h ⊢
    split_ifs at h ⊢
    · rfl
    · exact congrArg (p :: ·) (ih h)

lemma fileConflict_iff {p : CacheEntry} (hce : ¬Removed ce) ( hprefix : ce.name <+: p.name) :
    FileConflict ce p ↔ ¬(ceStage p ≠ ceStage ce ∨ p.name[ce.name.length]? ≠ some slash ∨ Removed p) := by
  unfold FileConflict SameTree
  rw [leadingDir_iff]
  constructor
  · rintro ⟨⟨hstage, -, hremoved⟩, -, hslash⟩
    simp [hstage, hremoved, hslash]
  · intro h
    push Not at h
    exact ⟨⟨h.1.symm, hce, h.2.2⟩, hprefix, h.2.1⟩

lemma hasFileName_of_none (hce : ¬Removed ce) (h : ∀ q ∈ cache, ¬FileConflict ce q) :
    hasFileName ce okToReplace cache = (false, cache) := by
  induction cache with
  | nil => rfl
  | cons p cache ih =>
    rw [hasFileName]
    split_ifs with hend hother hreplace
    · rfl
    · rw [ih fun q hq => h q (List.mem_cons_of_mem p hq)]
    · push Not at hend
      exact absurd ((fileConflict_iff hce hend.2).mpr hother) (h p (List.mem_cons_self ..))
    · push Not at hend
      exact absurd ((fileConflict_iff hce hend.2).mpr hother) (h p (List.mem_cons_self ..))

lemma hasFileName_sound (hce : ¬Removed ce) (hsorted : cache.Pairwise (fun a b => ceKey a < ceKey b))
    (habove : ∀ p ∈ cache, ceKey ce < ceKey p)
    (hseen : ∀ p ∈ cache, p.name = ce.name → ∀ q ∈ cache, ¬FileConflict ce q)
    (hresult : (hasFileName ce okToReplace cache).1 = false ∨ okToReplace = true) :
    ∀ q ∈ (hasFileName ce okToReplace cache).2, ¬FileConflict ce q := by
  induction cache with
  | nil => simp [hasFileName]
  | cons p cache ih =>
    have hbelow : ∀ q ∈ p :: cache, p.name ≤ q.name := by
      intro q hq
      obtain rfl | hq := List.mem_cons.mp hq
      · exact le_rfl
      · obtain hlt | ⟨heq, -⟩ := ceKey_lt.mp (List.rel_of_pairwise_cons hsorted hq)
        · exact hlt.le
        · exact heq.le
    have hname : ce.name ≤ p.name := by
      obtain hlt | ⟨heq, -⟩ := ceKey_lt.mp (habove p (List.mem_cons_self ..))
      · exact hlt.le
      · exact heq.le
    have ih := ih (List.pairwise_cons.mp hsorted).2 (fun q hq => habove q (List.mem_cons_of_mem p hq))
      (fun q hq hsame r hr => hseen q (List.mem_cons_of_mem p hq) hsame r (List.mem_cons_of_mem p hr))
    rw [hasFileName] at hresult ⊢
    split_ifs at hresult ⊢ with hend hother hreplace
    · -- what starts with the name ends here
      intro q hq hconflict
      have hprefix := prefix_of_between hname (hbelow q hq) hconflict.2.isPrefix
      obtain hshort | hno := hend
      · have hsame := hprefix.eq_of_length (le_antisymm hprefix.length_le hshort)
        exact hseen p (List.mem_cons_self ..) hsame.symm q hq hconflict
      · exact hno hprefix
    · intro q hq hconflict
      push Not at hend
      obtain rfl | hq := List.mem_cons.mp hq
      · exact (fileConflict_iff hce hend.2).mp hconflict hother
      · exact ih hresult q hq hconflict
    · simp [hreplace] at hresult
    · exact ih (.inr (by simpa using hreplace))

lemma hasSubdir_mem {dir : List UInt8} {stage : Nat} (h : hasSubdir dir stage cache = true) :
    ∃ p ∈ cache, LeadingDir slash dir p.name ∧ ceStage p = stage ∧ ¬Removed p := by
  induction cache with
  | nil => simp [hasSubdir] at h
  | cons p cache ih =>
    rw [hasSubdir] at h
    split_ifs at h with hend hfound
    · push Not at hend
      exact ⟨p, List.mem_cons_self .., leadingDir_iff.mpr ⟨hend.2.2, hend.2.1⟩, hfound⟩
    · obtain ⟨q, hq, hsub⟩ := ih h
      exact ⟨q, List.mem_cons_of_mem p hq, hsub⟩

lemma eq_of_ceKey_eq (hsorted : cache.Pairwise (fun a b => ceKey a < ceKey b)) {p q : CacheEntry} (hp : p ∈ cache)
    (hq : q ∈ cache) (hname : p.name = q.name) (hstage : ceStage p = ceStage q) : p = q := by
  have hnodup : (cache.map ceKey).Nodup := List.pairwise_map.mpr (hsorted.imp ne_of_lt)
  exact List.inj_on_of_nodup_map hnodup hp hq (ceKey_eq.mpr ⟨hname, hstage⟩)

lemma unremovedAt_some (hsorted : cache.Pairwise (fun a b => ceKey a < ceKey b)) {name : List UInt8} {stage : Nat}
    {p : CacheEntry} (h : unremovedAt cache (indexNameStagePos cache name stage) = some p) :
    ∃ a b, cache = a ++ p :: b ∧ p.name = name ∧ ceStage p = stage ∧ ¬Removed p ∧
      indexNameStagePos cache name stage = a.length := by
  unfold unremovedAt at h
  obtain ⟨a, q, b, hcache, hname, hstage, hpos⟩ | ⟨a, b, -, -, -, hpos⟩ := indexNameStagePos_split hsorted name stage
  · rw [hpos, if_pos (Int.natCast_nonneg _), Int.toNat_natCast, hcache] at h
    simp only [List.getElem?_append_right le_rfl, Nat.sub_self, List.getElem?_cons_zero, Option.filter_some] at h
    split_ifs at h with hremoved
    obtain rfl := Option.some.inj h
    exact ⟨a, b, hcache, hname, hstage, by simpa using hremoved, hpos⟩
  · rw [hpos, if_neg (by omega)] at h
    cases h

lemma unremovedAt_none (hsorted : cache.Pairwise (fun a b => ceKey a < ceKey b)) {name : List UInt8} {stage : Nat}
    (h : unremovedAt cache (indexNameStagePos cache name stage) = none) :
    ∀ q ∈ cache, q.name = name → ceStage q = stage → Removed q := by
  intro r hr hrname hrstage
  unfold unremovedAt at h
  obtain ⟨a, q, b, hcache, hname, hstage, hpos⟩ | ⟨a, b, hcache, hbefore, hbehind, hpos⟩ :=
    indexNameStagePos_split hsorted name stage
  · have hmem : q ∈ cache := by
      rw [hcache]
      simp
    obtain rfl := eq_of_ceKey_eq hsorted hr hmem (hrname.trans hname.symm) (hrstage.trans hstage.symm)
    rw [hpos, if_pos (Int.natCast_nonneg _), Int.toNat_natCast, hcache] at h
    simp only [List.getElem?_append_right le_rfl, Nat.sub_self, List.getElem?_cons_zero, Option.filter_some] at h
    by_contra hremoved
    rw [if_pos (by simpa using hremoved)] at h
    cases h
  · have hkey : ceKey r = toLex (name, stage) := by rw [ceKey, hrname, hrstage]
    rw [hcache] at hr
    obtain hr | hr := List.mem_append.mp hr
    · exact absurd hkey (hbefore r hr).ne
    · exact absurd hkey (hbehind r hr).ne'

def DirsBelow (cache : List CacheEntry) (ce : CacheEntry) (slashPos : Nat) : Prop :=
  ∀ q ∈ cache, DirConflict ce q → q.name.length < slashPos

lemma DirsBelow.of_length {len : Nat} (h : DirsBelow cache ce (len + 1))
    (hnone : ∀ q ∈ cache, DirConflict ce q → q.name.length ≠ len) : DirsBelow cache ce len := fun q hq hconflict =>
  lt_of_le_of_ne (Nat.le_of_lt_succ (h q hq hconflict)) (hnone q hq hconflict)

lemma DirConflict.name_eq {q : CacheEntry} {len : Nat} (h : DirConflict ce q) (hlength : q.name.length = len) :
    q.name = ce.name.take len := by
  have := List.prefix_iff_eq_take.mp h.2.isPrefix
  rwa [hlength] at this

lemma hasDirNameLoop_true (name : List UInt8) (stage slashPos : Nat) :
    (hasDirNameLoop name stage okToReplace slashPos true cache).1 = true := by
  induction slashPos generalizing cache with
  | zero => rfl
  | succ len ih =>
    rw [hasDirNameLoop]
    by_cases hslash : name[len]? ≠ some slash
    · rw [if_pos hslash]
      exact ih
    · rw [if_neg hslash]
      dsimp only
      cases unremovedAt cache (indexNameStagePos cache (name.take len) stage) with
      | some p =>
        cases okToReplace with
        | false => rfl
        | true => exact ih
      | none =>
        cases hasSubdir (name.take len) stage (cache.drop _) with
        | false => exact ih
        | true => rfl

lemma hasDirNameLoop_spec (h : IndexInv cache) {slashPos : Nat} {retval : Bool}
    (hbelow : DirsBelow cache ce slashPos) :
    let result := hasDirNameLoop ce.name (ceStage ce) okToReplace slashPos retval cache
    result.2.Sublist cache ∧ (result.1 = false → result.2 = cache) ∧
      (result.1 = false ∨ okToReplace = true → ∀ q ∈ result.2, ¬DirConflict ce q) := by
  induction slashPos generalizing retval cache with
  | zero =>
    rw [hasDirNameLoop]
    exact ⟨.refl _, fun _ => rfl, fun _ q hq hconflict => absurd (hbelow q hq hconflict) (Nat.not_lt_zero _)⟩
  | succ len ih =>
    rw [hasDirNameLoop]
    by_cases hslash : ce.name[len]? ≠ some slash
    · rw [if_pos hslash]
      refine ih h (hbelow.of_length fun q _ hconflict hlength => hslash ?_)
      rw [← hlength]
      exact (leadingDir_iff.mp hconflict.2).2
    · rw [if_neg hslash]
      dsimp only
      cases hfound : unremovedAt cache (indexNameStagePos cache (ce.name.take len) (ceStage ce)) with
      | some p =>
        obtain ⟨a, b, hcache, hname, hstage, hremoved, hpos⟩ := unremovedAt_some h.sorted hfound
        dsimp only
        split_ifs with hreplace
        · refine ⟨.refl _, fun hno => absurd hno (by simp), fun hno => ?_⟩
          simp [hreplace] at hno
        · have herase : removeIndexEntryAt cache
              (indexNameStagePos cache (ce.name.take len) (ceStage ce)).toNat = a ++ b := by
            rw [hpos, Int.toNat_natCast, removeIndexEntryAt, hcache, List.eraseIdx_append_of_length_le le_rfl,
              Nat.sub_self, List.eraseIdx_cons_zero]
          have hsub : (a ++ b).Sublist cache := by
            rw [hcache]
            exact List.Sublist.append_left (List.sublist_cons_self p b) a
          have hdistinct : ∀ q ∈ a ++ b, ceKey q ≠ ceKey p := by
            have hsorted := h.sorted
            rw [hcache, List.pairwise_append, List.pairwise_cons] at hsorted
            intro q hq
            obtain hq | hq := List.mem_append.mp hq
            · exact (hsorted.2.2 q hq p (List.mem_cons_self ..)).ne
            · exact (hsorted.2.1.1 q hq).ne'
          rw [herase]
          have hnext : DirsBelow (a ++ b) ce len := by
            refine DirsBelow.of_length (fun q hq => hbelow q (hsub.subset hq)) fun q hq hconflict hlength => ?_
            refine hdistinct q hq (ceKey_eq.mpr ⟨?_, ?_⟩)
            · rw [hname, hconflict.name_eq hlength]
            · rw [hstage, hconflict.1.1]
          obtain ⟨hsub', -, hsound⟩ := ih (h.sublist hsub) hnext
          refine ⟨hsub'.trans hsub, fun hno => ?_, hsound⟩
          rw [hasDirNameLoop_true] at hno
          cases hno
      | none =>
        have hnext : DirsBelow cache ce len := by
          refine hbelow.of_length fun q hq hconflict hlength => hconflict.1.2.2 ?_
          exact unremovedAt_none h.sorted hfound q hq (hconflict.name_eq hlength) hconflict.1.1.symm
        dsimp only
        generalize (if indexNameStagePos cache (ce.name.take len) (ceStage ce) < 0 then _ else _) = pos
        split_ifs with hsubdir
        · refine ⟨.refl _, fun _ => rfl, fun _ q hq hconflict => ?_⟩
          -- an entry in the directory has no conflict with the shorter ones
          obtain ⟨p, hp, hdir, hstage, hremoved⟩ := hasSubdir_mem hsubdir
          have hlen : len < ce.name.length := by
            by_contra hge
            exact hslash (by simp [List.getElem?_eq_none (not_lt.mp hge)])
          have htake : (ce.name.take len).length = len := by
            rw [List.length_take]
            omega
          have hshort : LeadingDir slash q.name (ce.name.take len) :=
            hconflict.2.of_lt (List.take_prefix ..) (by rw [htake]; exact hnext q hq hconflict)
          exact h.conflict q hq p (List.mem_of_mem_drop hp)
            ⟨by rw [hstage, hconflict.1.1], hconflict.1.2.2, hremoved⟩ (hshort.trans hdir)
        · exact ih h hnext

lemma le_getLast (hsorted : cache.Pairwise (fun a b => ceKey a < ceKey b)) {last : CacheEntry}
    (hlast : cache.getLast? = some last) : ∀ q ∈ cache, q.name ≤ last.name := by
  intro q hq
  obtain ⟨front, rfl⟩ := List.getLast?_eq_some_iff.mp hlast
  obtain hq | hq := List.mem_append.mp hq
  · obtain hlt | ⟨heq, -⟩ := ceKey_lt.mp ((List.pairwise_append.mp hsorted).2.2 q hq last (List.mem_singleton_self _))
    · exact hlt.le
    · exact heq.le
  · exact (congrArg CacheEntry.name (List.mem_singleton.mp hq)).le

/-- The last entry is one that a conflict would also concern, or there is no conflict. -/
def LastTells (cache : List CacheEntry) (ce : CacheEntry) : Prop :=
  ∀ last, cache.getLast? = some last → AppendsAfter ce.name last →
    ceStage last = ceStage ce ∧ ¬Removed last ∨ ∀ q ∈ cache, ¬DirConflict ce q

lemma hasDirName_spec (h : IndexInv cache) (hlast : LastTells cache ce) :
    let result := hasDirName cache ce okToReplace
    result.2.Sublist cache ∧ (result.1 = false → result.2 = cache) ∧
      (result.1 = false ∨ okToReplace = true → ∀ q ∈ result.2, ¬DirConflict ce q) := by
  unfold hasDirName
  cases hget : cache.getLast? with
  | none =>
    obtain rfl := List.getLast?_eq_none_iff.mp hget
    exact ⟨.refl _, fun _ => rfl, fun _ q hq => absurd hq List.not_mem_nil⟩
  | some last =>
    dsimp only
    split_ifs with happends
    · refine ⟨.refl _, fun _ => rfl, fun _ q hq hconflict => ?_⟩
      obtain ⟨hstage, hremoved⟩ | hnone := hlast last hget happends
      · obtain hdir | hlt := strcmpOffset_dir happends.1 happends.2 hconflict.2
        · exact h.conflict q hq last (List.mem_of_getLast? hget)
            ⟨by rw [hstage, hconflict.1.1], hconflict.1.2.2, hremoved⟩ hdir
        · exact absurd (le_getLast h.sorted hget q hq) (not_le.mpr hlt)
      · exact hnone q hq hconflict
    · exact hasDirNameLoop_spec h fun q _ hconflict => hconflict.2.length_lt

lemma IndexInv.no_dirConflict (h : IndexInv cache) {p q : CacheEntry} (hp : p ∈ cache) (hfile : FileConflict ce p)
    (hq : q ∈ cache) : ¬DirConflict ce q := fun hdir =>
  h.conflict q hq p hp ⟨hdir.1.1.symm.trans hfile.1.1, hdir.1.2.2, hfile.1.2.2⟩ (hdir.2.trans hfile.2)

lemma checkFileDirectoryConflict_spec {a b : List CacheEntry} (h : IndexInv (a ++ b)) (hce : ¬Removed ce)
    (hbefore : ∀ p ∈ a, ceKey p < ceKey ce) (hbehind : ∀ p ∈ b, ceKey ce < ceKey p)
    (hseen : ∀ p ∈ b, p.name = ce.name → ∀ q ∈ b, ¬FileConflict ce q) (hlast : LastTells (a ++ b) ce) :
    let result := checkFileDirectoryConflict (a ++ b) ce a.length okToReplace
    result.2.Sublist (a ++ b) ∧ (result.1 = false → result.2 = a ++ b) ∧
      (result.1 = false ∨ okToReplace = true → ∀ q ∈ result.2, ¬FileConflict ce q ∧ ¬DirConflict ce q) := by
  have hsub : (a ++ (hasFileName ce okToReplace b).2).Sublist (a ++ b) := List.Sublist.append_left hasFileName_sublist a
  have hlast' : LastTells (a ++ (hasFileName ce okToReplace b).2) ce := by
    by_cases hnone : ∀ q ∈ b, ¬FileConflict ce q
    · rwa [hasFileName_of_none hce hnone]
    · push Not at hnone
      obtain ⟨p, hp, hfile⟩ := hnone
      exact fun last _ _ => .inr fun q hq => h.no_dirConflict (List.mem_append_right a hp) hfile (hsub.subset hq)
  obtain ⟨hsub', hkeep, hsound⟩ := @hasDirName_spec _ okToReplace _ (h.sublist hsub) hlast'
  unfold checkFileDirectoryConflict
  rw [if_neg hce, List.drop_left, List.take_left]
  dsimp only
  refine ⟨hsub'.trans hsub, fun hno => ?_, fun hno q hq => ⟨fun hfile => ?_, ?_⟩⟩
  · rw [Bool.or_eq_false_iff] at hno
    rw [hkeep hno.2, hasFileName_keep hno.1]
  · obtain hq | hq := List.mem_append.mp (hsub'.subset hq)
    · obtain hlt | ⟨heq, -⟩ := ceKey_lt.mp (hbefore q hq)
      · exact lt_asymm hlt hfile.2.lt
      · exact hfile.2.lt.ne' heq
    · refine hasFileName_sound hce (List.pairwise_append.mp h.sorted).2.1 hbehind hseen ?_ q hq hfile
      exact hno.imp_left fun hno => (Bool.or_eq_false_iff.mp hno).1
  · exact hsound (hno.imp_left fun hno => (Bool.or_eq_false_iff.mp hno).2) q hq

end

end GitCore.Index
