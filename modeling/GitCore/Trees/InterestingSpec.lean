import GitCore.Trees.Interesting
import GitCore.Lib.Paths

/-!
# The results that hold for the rest of a tree

An item without a wildcard that sorts before an entry, or does not fit to the base, matches no later entry and
nothing below one; an item that covers the base matches all of them. So the traversals that stop or stop asking
select what an evaluation of every entry selects.
-/

namespace GitCore.Trees

open Index (slash)

lemma strncmp_eq_zero_iff (s1 s2 : List UInt8) (n : Nat) : strncmp s1 s2 n = 0 ↔ s1.take n = s2.take n := by
  induction n generalizing s1 s2 with
  | zero => simp [strncmp]
  | succ n ih =>
    cases s1 with
    | nil => cases s2 <;> simp [strncmp]
    | cons a s1 =>
      cases s2 with
      | nil => simp [strncmp]
      | cons b s2 =>
        rw [strncmp]
        split_ifs with hlt hgt
        · simp [hlt.ne]
        · simp [hgt.ne']
        · obtain rfl := le_antisymm (not_lt.mp hgt) (not_lt.mp hlt)
          simp [ih]

lemma strncmp_neg_iff (s1 s2 : List UInt8) : strncmp s1 s2 (min s1.length s2.length) < 0 ↔ DivergesBelow s1 s2 := by
  induction s1 generalizing s2 with
  | nil => simp [strncmp, DivergesBelow.not_nil_left]
  | cons a s1 ih =>
    cases s2 with
    | nil => simp [strncmp, DivergesBelow.not_nil_right]
    | cons b s2 =>
      rw [List.length_cons, List.length_cons, Nat.succ_min_succ, strncmp, DivergesBelow.cons_iff]
      split_ifs with hlt hgt
      · simp [hlt]
      · simp [hlt, hgt.ne']
      · obtain rfl := le_antisymm (not_lt.mp hgt) (not_lt.mp hlt)
        simp [ih]

def treeKey (path : List UInt8) (mode : Nat) : List UInt8 := path ++ if isDir mode then [slash] else []

lemma endByte_cons {c : UInt8} (hc : c ≠ 0) (rest : List UInt8) (mode : Nat) : endByte (c :: rest) mode = c := by
  simp [endByte, hc]

lemma treeKey_lt {path1 path2 : List UInt8} {mode1 mode2 : Nat} (hnul1 : 0 ∉ path1) (hnul2 : 0 ∉ path2)
    (h : baseNameCompare path1 mode1 path2 mode2 < 0) : treeKey path1 mode1 < treeKey path2 mode2 := by
  induction path1, mode1, path2, mode2 using baseNameCompare.induct with
  | case1 a s m1 c t m2 hlt => exact List.cons_lt_cons_iff.mpr (.inl hlt)
  | case2 a s m1 c t m2 hlt hgt => simp [baseNameCompare, hlt, hgt] at h
  | case3 a s m1 c t m2 hlt hgt ih =>
    obtain rfl : a = c := le_antisymm (not_lt.mp hgt) (not_lt.mp hlt)
    rw [baseNameCompare, if_neg hlt, if_neg hgt] at h
    have hrest := ih (fun hmem => hnul1 (List.mem_cons_of_mem a hmem)) (fun hmem => hnul2 (List.mem_cons_of_mem a hmem)) h
    exact List.cons_lt_cons_iff.mpr (.inr ⟨rfl, hrest⟩)
  | case4 s m1 t m2 hcons hlt =>
    cases s with
    | nil =>
      cases t with
      | nil => by_cases hdir1 : isDir m1 <;> by_cases hdir2 : isDir m2 <;> simp [endByte, treeKey, hdir1, hdir2] at hlt ⊢
      | cons c t =>
        rw [endByte_cons (fun h => hnul2 (by simp [h]))] at hlt
        by_cases hdir1 : isDir m1
        · have hslash : slash < c := by simpa [endByte, hdir1] using hlt
          simp [treeKey, hdir1, List.cons_lt_cons_iff, hslash]
        · simp [treeKey, hdir1]
    | cons a s =>
      cases t with
      | nil =>
        rw [endByte_cons (fun h => hnul1 (by simp [h]))] at hlt
        by_cases hdir2 : isDir m2
        · have hslash : a < slash := by simpa [endByte, hdir2] using hlt
          simp [treeKey, hdir2, List.cons_lt_cons_iff, hslash]
        · simp [endByte, hdir2] at hlt
      | cons c t => exact (hcons a s c t rfl rfl).elim
  | case5 s m1 t m2 hcons hlt hgt => simp [baseNameCompare, hlt, hgt] at h
  | case6 s m1 t m2 hcons hlt hgt => simp [baseNameCompare, hlt, hgt] at h

/-- A recursive pathspec without attributes, without `icase` and without a limit of the depth. -/
structure Plain (ps : Pathspec) : Prop where
  recursive : ps.recursive = true
  depth : ps.maxDepthMagic = false ∨ ps.maxDepth = -1
  icase : ∀ item ∈ ps.items, item.icase = false
  attr : ∀ item ∈ ps.items, item.attrMatchNr = 0

def BaseOk (base : List UInt8) : Prop := base = [] ∨ base.getLast? = some slash

variable {env : Surroundings} {ps : Pathspec} {item : PathspecItem} {entry later : TreeEntry} {base : List UInt8}
  {never : Interesting}

lemma basecmp_eq_zero_iff (hicase : item.icase = false) (s1 s2 : List UInt8) (n : Nat) :
    basecmp item s1 s2 n = 0 ↔ s1.take n = s2.take n := by
  rw [basecmp, if_neg (by simp [hicase]), psStrncmp, if_neg (by simp [hicase]), strncmp_eq_zero_iff]

def Covers (item : PathspecItem) (base : List UInt8) : Prop :=
  item.pattern.length ≤ base.length ∧ matchDirPrefix item base item.pattern item.pattern.length = true

lemma covers_iff (hicase : item.icase = false) :
    Covers item base ↔ item.pattern <+: base ∧ (item.pattern = [] ∨ base.getD item.pattern.length 0 = slash ∨
      item.pattern.getLast? = some slash) := by
  have hlast : item.pattern ≠ [] →
      (item.pattern.getD (item.pattern.length - 1) 0 = slash ↔ item.pattern.getLast? = some slash) := by
    intro hne
    rw [List.getLast?_eq_getElem?, List.getD_eq_getElem?_getD]
    cases hget : item.pattern[item.pattern.length - 1]? with
    | none =>
      rw [List.getElem?_eq_none_iff] at hget
      have := List.length_pos_iff.mpr hne
      omega
    | some c => simp
  have hprefix : item.pattern.length ≤ base.length ∧ base.take item.pattern.length = item.pattern.take item.pattern.length ↔
      item.pattern <+: base := by
    rw [List.take_length, List.prefix_iff_eq_take]
    constructor
    · exact fun h => h.2.symm
    · intro h
      refine ⟨?_, h.symm⟩
      have := congrArg List.length h
      rw [List.length_take] at this
      omega
  rw [Covers, matchDirPrefix, ← hprefix, and_assoc]
  refine and_congr_right fun _ => ?_
  by_cases hcmp : basecmp item base item.pattern item.pattern.length = 0
  · have htake := (basecmp_eq_zero_iff hicase ..).mp hcmp
    rw [if_neg (not_not.mpr hcmp), decide_eq_true_eq, List.length_eq_zero_iff]
    simp only [htake, true_and]
    by_cases hne : item.pattern = []
    · simp [hne]
    · rw [hlast hne]
  · have htake := (not_congr (basecmp_eq_zero_iff hicase ..)).mp hcmp
    rw [if_pos hcmp]
    simp only [htake, false_and, Bool.false_eq_true]

def Apart (item : PathspecItem) (base : List UInt8) : Prop := ¬Covers item base ∧ ¬base <+: item.pattern

lemma covers_of_isPrefix (hicase : item.icase = false) (hbase : BaseOk base) (h : base <+: item.pattern)
    (hlen : item.pattern.length ≤ base.length) : Covers item base := by
  have heq := h.eq_of_length_le hlen
  rw [covers_iff hicase, ← heq]
  exact ⟨List.prefix_rfl, hbase.imp_right .inr⟩

lemma Apart.append (hicase : item.icase = false) (h : Apart item base) (x : List UInt8) : Apart item (base ++ x) := by
  refine ⟨fun hcovers => ?_, fun hlead => h.2 ((List.prefix_append base x).trans hlead)⟩
  obtain ⟨hpattern, hend⟩ := (covers_iff hicase).mp hcovers
  obtain hlead | hpattern' := List.prefix_or_prefix_of_prefix (List.prefix_append base x) hpattern
  · exact h.2 hlead
  · refine h.1 ((covers_iff hicase).mpr ⟨hpattern', hend.imp_right (Or.imp_left fun hslash => ?_)⟩)
    have hlt : item.pattern.length < base.length := by
      refine lt_of_le_of_ne hpattern'.length_le fun heq => h.2 ?_
      rw [hpattern'.eq_of_length heq]
    rwa [List.getD_append _ _ _ _ hlt] at hslash

lemma Covers.append (hicase : item.icase = false) (h : Covers item base) (x : List UInt8) :
    Covers item (base ++ x) := by
  obtain ⟨hpattern, hend⟩ := (covers_iff hicase).mp h
  refine (covers_iff hicase).mpr ⟨hpattern.trans (List.prefix_append base x), ?_⟩
  obtain hnil | hslash | hlast := hend
  · exact .inl hnil
  · obtain hlt | hge := lt_or_ge item.pattern.length base.length
    · exact .inr (.inl (by rwa [List.getD_append _ _ _ _ hlt]))
    · rw [List.getD_eq_default _ _ hge] at hslash
      exact absurd hslash (by decide)
  · exact .inr (.inr hlast)

lemma doMatchItem_covers (hplain : Plain ps) (hattr : item.attrMatchNr = 0) (h : Covers item base) :
    doMatchItem env ps entry base item never = .done .allEntriesInteresting := by
  have hdepth : ¬ps.recursive = true ∨ ¬ps.maxDepthMagic = true ∨ ps.maxDepth = -1 :=
    .inr (hplain.depth.imp_left fun hmagic => by simp [hmagic])
  rw [doMatchItem]
  dsimp only
  rw [if_pos h.1, if_neg (not_not.mpr h.2), if_pos hdepth, if_pos hattr]

lemma doMatchItem_apart (hicase : item.icase = false) (h : Apart item base) :
    doMatchItem env ps entry base item never = matchWildcards env ps entry base item never := by
  rw [doMatchItem]
  dsimp only
  by_cases hlen : item.pattern.length ≤ base.length
  · rw [if_pos hlen, if_pos fun hdir => h.1 ⟨hlen, hdir⟩]
  · have hno : ¬(base.length = 0 ∨ basecmp item base item.pattern base.length = 0) := by
      rw [basecmp_eq_zero_iff hicase, List.take_length]
      rintro (hnil | htake)
      · exact h.2 (List.length_eq_zero_iff.mp hnil ▸ List.nil_prefix)
      · exact h.2 (List.prefix_iff_eq_take.mpr htake)
    rw [if_neg hlen, if_neg hno]

lemma matchWildcards_literal (hliteral : item.nowildcardLen = item.pattern.length) :
    matchWildcards env ps entry base item never = .next never := by
  rw [matchWildcards, if_pos hliteral]

lemma doMatchItem_lead (hicase : item.icase = false) (hliteral : item.nowildcardLen = item.pattern.length)
    (hlead : base <+: item.pattern) (hlen : base.length < item.pattern.length) :
    doMatchItem env ps entry base item never =
      if (matchEntry item entry (item.pattern.drop base.length) never).1 then .interesting
      else .next (matchEntry item entry (item.pattern.drop base.length) never).2 := by
  have hyes : base.length = 0 ∨ basecmp item base item.pattern base.length = 0 := by
    rw [basecmp_eq_zero_iff hicase, List.take_length]
    exact .inr (List.prefix_iff_eq_take.mp hlead)
  rw [doMatchItem]
  dsimp only
  rw [if_neg (not_le.mpr hlen), if_pos hyes, if_neg (not_lt.mpr hliteral.ge)]

lemma matchEntry_asked (hicase : item.icase = false) (pattern : List UInt8) (hnever : never ≠ .entryNotInteresting) :
    matchEntry item entry pattern never =
      if strncmp pattern entry.path (min pattern.length entry.path.length) < 0 then (false, never)
      else (matchEntryRest item entry pattern
        (some (strncmp pattern entry.path (min pattern.length entry.path.length))), .entryNotInteresting) := by
  rw [matchEntry, if_neg (by simp [hicase]), if_pos hnever]

lemma matchEntry_settled (hicase : item.icase = false) (pattern : List UInt8) :
    matchEntry item entry pattern .entryNotInteresting =
      (matchEntryRest item entry pattern none, .entryNotInteresting) := by
  rw [matchEntry, if_neg (by simp [hicase]), if_neg (not_not.mpr rfl)]

lemma matchEntry_diverges {pattern : List UInt8} (hicase : item.icase = false)
    (h : DivergesBelow pattern (treeKey entry.path entry.mode)) :
    (matchEntry item entry pattern never).1 = false := by
  have hcmp : DivergesBelow pattern entry.path → matchEntryRest item entry pattern none = false := by
    intro hpath
    have hne : psStrncmp item pattern entry.path entry.path.length ≠ 0 := by
      rw [psStrncmp, if_neg (by simp [hicase]), Ne, strncmp_eq_zero_iff, List.take_length]
      exact fun htake => hpath.not_isPrefix_right (List.prefix_iff_eq_take.mpr htake.symm)
    simp [matchEntryRest, hne]
  obtain hpath | ⟨rest, rfl⟩ := h.of_append_right
  · -- the names differ before one of them ends
    by_cases hnever : never = .entryNotInteresting
    · rw [hnever, matchEntry_settled hicase]
      exact hcmp hpath
    · rw [matchEntry_asked hicase _ hnever, if_pos ((strncmp_neg_iff pattern entry.path).mpr hpath)]
  · -- the item goes on with a character below the slash
    have hrest := h.of_append_left
    have hno : ∀ m, matchEntryRest item entry (entry.path ++ rest) m = false := by
      intro m
      split_ifs at hrest with hdir
      · cases rest with
        | nil => exact absurd hrest DivergesBelow.not_nil_left
        | cons a rest =>
          have hslash : a ≠ slash := by
            obtain hlt | ⟨-, hnil⟩ := DivergesBelow.cons_iff.mp hrest
            · exact hlt.ne
            · exact absurd hnil DivergesBelow.not_nil_right
          simp [matchEntryRest, hslash]
      · exact absurd hrest DivergesBelow.not_nil_right
    by_cases hnever : never = .entryNotInteresting
    · rw [hnever, matchEntry_settled hicase]
      exact hno _
    · rw [matchEntry_asked hicase _ hnever]
      split_ifs
      · rfl
      · exact hno _

def SortsBefore (item : PathspecItem) (base key : List UInt8) : Prop :=
  base <+: item.pattern ∧ DivergesBelow (item.pattern.drop base.length) key

lemma SortsBefore.length_lt {key : List UInt8} (h : SortsBefore item base key) : base.length < item.pattern.length := by
  by_contra hge
  have hdiverges := h.2
  rw [List.drop_of_length_le (not_lt.mp hge)] at hdiverges
  exact DivergesBelow.not_nil_left hdiverges

lemma SortsBefore.apart (hicase : item.icase = false) {key : List UInt8} (h : SortsBefore item base key)
    (x : List UInt8) : Apart item (base ++ key ++ x) := by
  obtain ⟨⟨rest, hrest⟩, hdiverges⟩ := h
  have hall : DivergesBelow item.pattern (base ++ key ++ x) := by
    rw [← hrest, List.drop_left] at hdiverges
    rw [← hrest]
    exact (hdiverges.append_left base).append_right x
  exact ⟨fun hcovers => hall.not_isPrefix_left ((covers_iff hicase).mp hcovers).1, hall.not_isPrefix_right⟩

def Passed (item : PathspecItem) (base key : List UInt8) : Prop := Apart item base ∨ SortsBefore item base key

lemma passed_of_doMatchItem (hplain : Plain ps) (hbase : BaseOk base) (hicase : item.icase = false)
    (hattr : item.attrMatchNr = 0) (hliteral : item.nowildcardLen = item.pattern.length)
    (h : doMatchItem env ps entry base item .allEntriesNotInteresting = .next .allEntriesNotInteresting) :
    Passed item base entry.path := by
  by_cases hcovers : Covers item base
  · rw [doMatchItem_covers hplain hattr hcovers] at h
    cases h
  by_cases hlead : base <+: item.pattern
  · have hlen : base.length < item.pattern.length := by
      by_contra hge
      exact hcovers (covers_of_isPrefix hicase hbase hlead (not_lt.mp hge))
    refine .inr ⟨hlead, ?_⟩
    rw [doMatchItem_lead hicase hliteral hlead hlen, matchEntry_asked hicase _ (by decide)] at h
    by_contra hno
    rw [if_neg ((strncmp_neg_iff ..).not.mpr hno)] at h
    split_ifs at h
    simp at h
  · exact .inl ⟨hcovers, hlead⟩

lemma Passed.next (hicase : item.icase = false) (hliteral : item.nowildcardLen = item.pattern.length) {key : List UInt8}
    (h : Passed item base key) (hlt : key < treeKey entry.path entry.mode) (never : Interesting) :
    ∃ never', doMatchItem env ps entry base item never = .next never' := by
  obtain hapart | hbefore := h
  · exact ⟨never, by rw [doMatchItem_apart hicase hapart, matchWildcards_literal hliteral]⟩
  · have hdiverges := hbefore.2.trans_lt hlt
    refine ⟨(matchEntry item entry (item.pattern.drop base.length) never).2, ?_⟩
    rw [doMatchItem_lead hicase hliteral hbefore.1 hbefore.length_lt, matchEntry_diverges hicase hdiverges]
    exact if_neg (by decide)

lemma Passed.below (hicase : item.icase = false) {key : List UInt8} (h : Passed item base key) {key' : List UInt8}
    (hlt : key < key') (x : List UInt8) : Apart item (base ++ key' ++ x) := by
  obtain hapart | hbefore := h
  · rw [List.append_assoc]
    exact hapart.append hicase _
  · exact SortsBefore.apart hicase ⟨hbefore.1, hbefore.2.trans_lt hlt⟩ x

lemma matchWildcards_next {never' : Interesting} (h : matchWildcards env ps entry base item never = .next never') :
    never' = never := by
  rw [matchWildcards] at h
  split_ifs at h <;> cases h <;> rfl

lemma matchWildcards_done {result : Interesting} (h : matchWildcards env ps entry base item never = .done result) :
    result = .entryInteresting := by
  rw [matchWildcards] at h
  split_ifs at h
  cases h
  rfl

lemma matchEntry_snd (item : PathspecItem) (entry : TreeEntry) (pattern : List UInt8) (never : Interesting) :
    (matchEntry item entry pattern never).2 = never ∨
      (matchEntry item entry pattern never).2 = .entryNotInteresting := by
  rw [matchEntry]
  dsimp only
  split_ifs <;> simp

lemma doMatchItem_next {never' : Interesting} (h : doMatchItem env ps entry base item never = .next never') :
    never' = never ∨ never' = .entryNotInteresting := by
  have hsnd := matchEntry_snd item entry (item.pattern.drop base.length) never
  rw [doMatchItem] at h
  dsimp only at h
  split_ifs at h
  all_goals first
    | exact .inl (matchWildcards_next h)
    | (cases h; exact hsnd)

lemma doMatchItem_done (hplain : Plain ps) {result : Interesting}
    (h : doMatchItem env ps entry base item never = .done result) :
    result = .entryInteresting ∨ (result = .allEntriesInteresting ∧ Covers item base) := by
  have hdepth : ¬ps.recursive = true ∨ ¬ps.maxDepthMagic = true ∨ ps.maxDepth = -1 :=
    .inr (hplain.depth.imp_left fun hmagic => by simp [hmagic])
  rw [doMatchItem] at h
  dsimp only at h
  by_cases hlen : item.pattern.length ≤ base.length
  · rw [if_pos hlen] at h
    by_cases hdir : matchDirPrefix item base item.pattern item.pattern.length = true
    · rw [if_neg (not_not.mpr hdir), if_pos hdepth] at h
      split_ifs at h
      cases h
      exact .inr ⟨rfl, hlen, hdir⟩
    · rw [if_pos hdir] at h
      exact .inl (matchWildcards_done h)
  · rw [if_neg hlen] at h
    split_ifs at h
    all_goals first
      | exact .inl (matchWildcards_done h)
      | (cases h; exact .inl rfl)

variable {exclude : Bool} {items : List PathspecItem}

lemma doMatchLoop_cons_of_ne (h : item.exclude ≠ exclude) :
    doMatchLoop env ps entry base exclude (item :: items) never = doMatchLoop env ps entry base exclude items never := by
  rw [doMatchLoop, if_pos h]

lemma doMatchLoop_cons_cases (hattr : item.attrMatchNr = 0) (h : item.exclude = exclude) :
    (∃ never', doMatchItem env ps entry base item never = .next never' ∧
      doMatchLoop env ps entry base exclude (item :: items) never =
        doMatchLoop env ps entry base exclude items never') ∨
    (∃ result, doMatchItem env ps entry base item never = .done result ∧
      doMatchLoop env ps entry base exclude (item :: items) never = result) ∨
    (doMatchItem env ps entry base item never = .interesting ∧
      doMatchLoop env ps entry base exclude (item :: items) never = .entryInteresting) := by
  rw [doMatchLoop, if_neg (not_not.mpr h)]
  cases hround : doMatchItem env ps entry base item never with
  | next never' => exact .inl ⟨never', rfl, rfl⟩
  | done result => exact .inr (.inl ⟨result, rfl, rfl⟩)
  | interesting => exact .inr (.inr ⟨rfl, if_pos hattr⟩)

lemma doMatchLoop_allEntriesNot (hplain : Plain ps) (hattr : ∀ item ∈ items, item.attrMatchNr = 0)
    (h : doMatchLoop env ps entry base exclude items never = .allEntriesNotInteresting) :
    never = .allEntriesNotInteresting ∧ ∀ item ∈ items, item.exclude = exclude →
      doMatchItem env ps entry base item .allEntriesNotInteresting = .next .allEntriesNotInteresting := by
  induction items generalizing never with
  | nil => exact ⟨h, by simp⟩
  | cons item items ih =>
    have hattrs : ∀ item ∈ items, item.attrMatchNr = 0 := fun other hmem => hattr other (List.mem_cons_of_mem item hmem)
    by_cases hexclude : item.exclude = exclude
    · obtain ⟨never', hround, hloop⟩ | ⟨result, hround, hloop⟩ | ⟨hround, hloop⟩ :=
        @doMatchLoop_cons_cases env ps item entry base never exclude items (hattr item List.mem_cons_self) hexclude
      · rw [hloop] at h
        obtain ⟨rfl, hrest⟩ := ih hattrs h
        obtain rfl : never = .allEntriesNotInteresting := by
          obtain hsame | hsettled := doMatchItem_next hround
          · exact hsame.symm
          · cases hsettled
        exact ⟨rfl, List.forall_mem_cons.mpr ⟨fun _ => hround, hrest⟩⟩
      · rw [hloop] at h
        obtain hentry | ⟨hall, -⟩ := doMatchItem_done hplain hround
        · rw [hentry] at h
          cases h
        · rw [hall] at h
          cases h
      · rw [hloop] at h
        cases h
    · rw [doMatchLoop_cons_of_ne hexclude] at h
      obtain ⟨hnever, hrest⟩ := ih hattrs h
      exact ⟨hnever, List.forall_mem_cons.mpr ⟨fun hno => absurd hno hexclude, hrest⟩⟩

lemma doMatchLoop_missed (hattr : ∀ item ∈ items, item.attrMatchNr = 0) (hnever : never.toInt ≤ 0)
    (h : ∀ item ∈ items, item.exclude = exclude → ∀ never, ∃ never',
      doMatchItem env ps entry base item never = .next never') :
    (doMatchLoop env ps entry base exclude items never).toInt ≤ 0 := by
  induction items generalizing never with
  | nil => exact hnever
  | cons item items ih =>
    have hrest : ∀ never : Interesting, never.toInt ≤ 0 →
        (doMatchLoop env ps entry base exclude items never).toInt ≤ 0 := fun never hnever =>
      ih (fun other hmem => hattr other (List.mem_cons_of_mem item hmem)) hnever
        (fun other hmem => h other (List.mem_cons_of_mem item hmem))
    by_cases hexclude : item.exclude = exclude
    · obtain ⟨never', hround⟩ := h item List.mem_cons_self hexclude never
      rw [doMatchLoop, if_neg (not_not.mpr hexclude), hround]
      refine hrest never' ?_
      obtain rfl | rfl := doMatchItem_next hround
      · exact hnever
      · exact le_rfl
    · rw [doMatchLoop_cons_of_ne hexclude]
      exact hrest never hnever

lemma doMatchLoop_covered (hplain : Plain ps) (hattr : ∀ item ∈ items, item.attrMatchNr = 0)
    (h : ∃ item ∈ items, item.exclude = exclude ∧ Covers item base) :
    1 ≤ (doMatchLoop env ps entry base exclude items never).toInt := by
  induction items generalizing never with
  | nil => simp at h
  | cons item items ih =>
    have hattrs : ∀ item ∈ items, item.attrMatchNr = 0 := fun other hmem => hattr other (List.mem_cons_of_mem item hmem)
    by_cases hexclude : item.exclude = exclude
    · obtain ⟨never', hround, hloop⟩ | ⟨result, hround, hloop⟩ | ⟨hround, hloop⟩ :=
        @doMatchLoop_cons_cases env ps item entry base never exclude items (hattr item List.mem_cons_self) hexclude
      · rw [hloop]
        obtain ⟨other, hmem, hother⟩ := h
        obtain rfl | hmem := List.mem_cons.mp hmem
        · rw [doMatchItem_covers hplain (hattr other List.mem_cons_self) hother.2] at hround
          cases hround
        · exact ih hattrs ⟨other, hmem, hother⟩
      · rw [hloop]
        obtain rfl | ⟨rfl, -⟩ := doMatchItem_done hplain hround <;> decide
      · rw [hloop]
        decide
    · rw [doMatchLoop_cons_of_ne hexclude]
      obtain ⟨other, hmem, hother⟩ := h
      obtain rfl | hmem := List.mem_cons.mp hmem
      · exact absurd hother.1 hexclude
      · exact ih hattrs ⟨other, hmem, hother⟩

lemma doMatchLoop_allEntries (hplain : Plain ps) (hattr : ∀ item ∈ items, item.attrMatchNr = 0)
    (hnever : never.toInt ≤ 0) (h : doMatchLoop env ps entry base exclude items never = .allEntriesInteresting) :
    ∃ item ∈ items, item.exclude = exclude ∧ Covers item base := by
  induction items generalizing never with
  | nil =>
    rw [doMatchLoop] at h
    rw [h] at hnever
    exact absurd hnever (by decide)
  | cons item items ih =>
    have hrest : ∀ never : Interesting, never.toInt ≤ 0 →
        doMatchLoop env ps entry base exclude items never = .allEntriesInteresting →
        ∃ other ∈ item :: items, other.exclude = exclude ∧ Covers other base := by
      intro never hnever h
      obtain ⟨other, hmem, hother⟩ := ih (fun other hmem => hattr other (List.mem_cons_of_mem item hmem)) hnever h
      exact ⟨other, List.mem_cons_of_mem item hmem, hother⟩
    by_cases hexclude : item.exclude = exclude
    · obtain ⟨never', hround, hloop⟩ | ⟨result, hround, hloop⟩ | ⟨hround, hloop⟩ :=
        @doMatchLoop_cons_cases env ps item entry base never exclude items (hattr item List.mem_cons_self) hexclude
      · rw [hloop] at h
        refine hrest never' ?_ h
        obtain rfl | rfl := doMatchItem_next hround
        · exact hnever
        · exact le_rfl
      · rw [hloop] at h
        obtain hentry | ⟨-, hcovers⟩ := doMatchItem_done hplain hround
        · rw [hentry] at h
          cases h
        · exact ⟨item, List.mem_cons_self, hexclude, hcovers⟩
      · rw [hloop] at h
        cases h
    · rw [doMatchLoop_cons_of_ne hexclude] at h
      exact hrest never hnever h

lemma doMatch_nil (hplain : Plain ps) (h : ps.items = []) : doMatch env entry base ps exclude = .allEntriesInteresting := by
  have hdepth : ¬ps.recursive = true ∨ ¬ps.maxDepthMagic = true ∨ ps.maxDepth = -1 :=
    .inr (hplain.depth.imp_left fun hmagic => by simp [hmagic])
  rw [doMatch, if_pos h, if_pos hdepth]

lemma doMatch_loop (h : ps.items ≠ []) :
    doMatch env entry base ps exclude = doMatchLoop env ps entry base exclude ps.items.reverse
      (if ps.hasWildcard then .entryNotInteresting else .allEntriesNotInteresting) := by
  rw [doMatch, if_neg h]

lemma start_toInt (ps : Pathspec) :
    (if ps.hasWildcard then Interesting.entryNotInteresting else .allEntriesNotInteresting).toInt ≤ 0 := by
  split_ifs <;> decide

def AllPassed (ps : Pathspec) (exclude : Bool) (base key : List UInt8) : Prop :=
  (∀ item ∈ ps.items, item.nowildcardLen = item.pattern.length) ∧
    ∀ item ∈ ps.items, item.exclude = exclude → Passed item base key

def SomeCovers (ps : Pathspec) (exclude : Bool) (base : List UInt8) : Prop :=
  ps.items = [] ∨ ∃ item ∈ ps.items, item.exclude = exclude ∧ Covers item base

lemma allPassed_of_doMatch (hplain : Plain ps) (hbase : BaseOk base)
    (h : doMatch env entry base ps exclude = .allEntriesNotInteresting) :
    ps.items ≠ [] ∧ AllPassed ps exclude base entry.path := by
  have hne : ps.items ≠ [] := by
    intro hnil
    rw [doMatch_nil hplain hnil] at h
    cases h
  rw [doMatch_loop hne] at h
  obtain ⟨hstart, hrounds⟩ :=
    doMatchLoop_allEntriesNot hplain (fun item hmem => hplain.attr item (List.mem_reverse.mp hmem)) h
  have hwildcard : ps.hasWildcard ≠ true := by
    intro hyes
    rw [if_pos hyes] at hstart
    cases hstart
  have hliteral : ∀ item ∈ ps.items, item.nowildcardLen = item.pattern.length := fun item hmem =>
    le_antisymm item.nowildcardLen_le (not_lt.mp fun hlt => hwildcard (ps.hasWildcard_iff.mpr ⟨item, hmem, hlt⟩))
  exact ⟨hne, hliteral, fun item hmem hexclude => passed_of_doMatchItem hplain hbase (hplain.icase item hmem)
    (hplain.attr item hmem) (hliteral item hmem) (hrounds item (List.mem_reverse.mpr hmem) hexclude)⟩

lemma AllPassed.next (hplain : Plain ps) (hne : ps.items ≠ []) {key : List UInt8} (h : AllPassed ps exclude base key)
    (hlt : key < treeKey entry.path entry.mode) : (doMatch env entry base ps exclude).toInt ≤ 0 := by
  rw [doMatch_loop hne]
  refine doMatchLoop_missed (fun item hmem => hplain.attr item (List.mem_reverse.mp hmem)) (start_toInt ps) ?_
  intro item hmem hexclude never
  have hmem := List.mem_reverse.mp hmem
  exact (h.2 item hmem hexclude).next (hplain.icase item hmem) (h.1 item hmem) hlt never

lemma AllPassed.below (hplain : Plain ps) (hne : ps.items ≠ []) {key : List UInt8} (h : AllPassed ps exclude base key)
    (hlt : key < treeKey later.path later.mode) (hdir : isDir later.mode = true) (x : List UInt8) :
    (doMatch env entry (subBase base later ++ x) ps exclude).toInt ≤ 0 := by
  rw [doMatch_loop hne]
  refine doMatchLoop_missed (fun item hmem => hplain.attr item (List.mem_reverse.mp hmem)) (start_toInt ps) ?_
  intro item hmem hexclude never
  have hmem := List.mem_reverse.mp hmem
  have hapart := (h.2 item hmem hexclude).below (hplain.icase item hmem) hlt x
  have hbase : base ++ treeKey later.path later.mode = subBase base later := by
    rw [treeKey, if_pos hdir, subBase, List.append_assoc]
  rw [hbase] at hapart
  exact ⟨never, by rw [doMatchItem_apart (hplain.icase item hmem) hapart, matchWildcards_literal (h.1 item hmem)]⟩

lemma someCovers_of_doMatch (hplain : Plain ps) (h : doMatch env entry base ps exclude = .allEntriesInteresting) :
    SomeCovers ps exclude base := by
  by_cases hne : ps.items = []
  · exact .inl hne
  · rw [doMatch_loop hne] at h
    obtain ⟨item, hmem, hitem⟩ := doMatchLoop_allEntries hplain
      (fun item hmem => hplain.attr item (List.mem_reverse.mp hmem)) (start_toInt ps) h
    exact .inr ⟨item, List.mem_reverse.mp hmem, hitem⟩

lemma SomeCovers.append (hplain : Plain ps) (h : SomeCovers ps exclude base) (x : List UInt8) :
    SomeCovers ps exclude (base ++ x) :=
  h.imp_right fun hitem => by
    obtain ⟨item, hmem, hexclude, hcovers⟩ := hitem
    exact ⟨item, hmem, hexclude, hcovers.append (hplain.icase item hmem) x⟩

lemma SomeCovers.doMatch (hplain : Plain ps) (h : SomeCovers ps exclude base) (entry : TreeEntry) :
    1 ≤ (doMatch env entry base ps exclude).toInt := by
  by_cases hnil : ps.items = []
  · rw [doMatch_nil hplain hnil]
    decide
  · obtain ⟨item, hmem, hitem⟩ := h.resolve_left hnil
    rw [doMatch_loop hnil]
    exact doMatchLoop_covered hplain (fun item hmem => hplain.attr item (List.mem_reverse.mp hmem))
      ⟨item, List.mem_reverse.mpr hmem, hitem⟩

def rowResult (excludeMagic dir : Bool) (positive negative : Interesting) : Interesting :=
  if ¬ excludeMagic ∨ positive.toInt ≤ Interesting.entryNotInteresting.toInt then positive
  else if positive = .allEntriesInteresting ∧ negative = .entryNotInteresting then .entryInteresting
  else if negative.toInt ≤ Interesting.entryNotInteresting.toInt then positive
  else if dir ∧ Interesting.entryInteresting.toInt ≤ positive.toInt ∧ negative = .entryInteresting then .entryInteresting
  else if (positive = .entryInteresting ∧ Interesting.entryInteresting.toInt ≤ negative.toInt) ∨
      (positive = .allEntriesInteresting ∧ negative = .entryInteresting) then .entryNotInteresting
  else .allEntriesNotInteresting

lemma treeEntryInteresting_eq : treeEntryInteresting env entry base ps =
    rowResult ps.excludeMagic (isDir entry.mode) (doMatch env entry base ps false) (doMatch env entry base ps true) :=
  rfl

section Rows

variable {excludeMagic dir : Bool} {positive negative : Interesting}

lemma rowResult_le (h : positive.toInt ≤ 0) : (rowResult excludeMagic dir positive negative).toInt ≤ 0 := by
  rw [rowResult, if_pos (.inr h)]
  exact h

lemma rowResult_excluded (h : 1 ≤ negative.toInt) (hrow : 1 ≤ (rowResult true dir positive negative).toInt) :
    dir = true ∧ rowResult true dir positive negative = .entryInteresting := by
  cases dir <;> cases positive <;> cases negative <;> revert h hrow <;> decide

lemma le_rowResult (hpositive : 1 ≤ positive.toInt) (h : excludeMagic = false ∨ negative.toInt ≤ 0) :
    1 ≤ (rowResult excludeMagic dir positive negative).toInt := by
  cases excludeMagic <;> cases dir <;> cases positive <;> cases negative <;> revert hpositive h <;> decide

lemma rowResult_allEntriesNot (h : rowResult excludeMagic dir positive negative = .allEntriesNotInteresting) :
    positive = .allEntriesNotInteresting ∨
      (excludeMagic = true ∧ positive = .allEntriesInteresting ∧ negative = .allEntriesInteresting) := by
  cases excludeMagic <;> cases dir <;> cases positive <;> cases negative <;> revert h <;> decide

lemma rowResult_allEntries (h : rowResult excludeMagic dir positive negative = .allEntriesInteresting) :
    positive = .allEntriesInteresting ∧ (excludeMagic = false ∨ negative = .allEntriesNotInteresting) := by
  cases excludeMagic <;> cases dir <;> cases positive <;> cases negative <;> revert h <;> decide

end Rows

lemma items_ne_nil (h : ps.excludeMagic = true) : ps.items ≠ [] := by
  obtain ⟨item, hmem, -⟩ := ps.excludeMagic_iff.mp h
  exact List.ne_nil_of_mem hmem

/-- An entry is at most a directory to look into, because an item excludes everything below the base. -/
def OnlyExcluded (ps : Pathspec) (base : List UInt8) (entry : TreeEntry) (result : Interesting) : Prop :=
  isDir entry.mode = true ∧ result = .entryInteresting ∧ ∃ item ∈ ps.items, item.exclude = true ∧ Covers item base

def Excluded (ps : Pathspec) (base : List UInt8) : Prop := ps.excludeMagic = true ∧ SomeCovers ps true base

lemma Excluded.append (hplain : Plain ps) (h : Excluded ps base) (x : List UInt8) : Excluded ps (base ++ x) :=
  ⟨h.1, h.2.append hplain x⟩

lemma Excluded.only (hplain : Plain ps) (h : Excluded ps base)
    (hrow : 1 ≤ (treeEntryInteresting env entry base ps).toInt) :
    OnlyExcluded ps base entry (treeEntryInteresting env entry base ps) := by
  rw [treeEntryInteresting_eq, h.1] at hrow ⊢
  obtain ⟨hdir, hresult⟩ := rowResult_excluded (h.2.doMatch hplain entry) hrow
  exact ⟨hdir, hresult, h.2.resolve_left (items_ne_nil h.1)⟩

lemma treeEntryInteresting_allEntriesNot (hplain : Plain ps) (hbase : BaseOk base)
    (h : treeEntryInteresting env entry base ps = .allEntriesNotInteresting) :
    (ps.items ≠ [] ∧ AllPassed ps false base entry.path) ∨ Excluded ps base := by
  rw [treeEntryInteresting_eq] at h
  obtain hpositive | ⟨hmagic, -, hnegative⟩ := rowResult_allEntriesNot h
  · exact .inl (allPassed_of_doMatch hplain hbase hpositive)
  · exact .inr ⟨hmagic, someCovers_of_doMatch hplain hnegative⟩

lemma treeEntryInteresting_allEntries (hplain : Plain ps) (hbase : BaseOk base)
    (h : treeEntryInteresting env entry base ps = .allEntriesInteresting) :
    SomeCovers ps false base ∧
      (ps.excludeMagic = false ∨ ps.items ≠ [] ∧ AllPassed ps true base entry.path) := by
  rw [treeEntryInteresting_eq] at h
  obtain ⟨hpositive, hnegative⟩ := rowResult_allEntries h
  exact ⟨someCovers_of_doMatch hplain hpositive, hnegative.imp_right (allPassed_of_doMatch hplain hbase)⟩

/-- What the results of an entry say about the later entries and everything below them. -/
structure RestSound (env : Surroundings) (ps : Pathspec) (base : List UInt8) (entry later : TreeEntry) : Prop where
  notInteresting : treeEntryInteresting env entry base ps = .allEntriesNotInteresting →
    1 ≤ (treeEntryInteresting env later base ps).toInt →
      OnlyExcluded ps base later (treeEntryInteresting env later base ps)
  notInteresting_below : treeEntryInteresting env entry base ps = .allEntriesNotInteresting →
    isDir later.mode = true → ∀ (x : List UInt8) (below : TreeEntry),
      1 ≤ (treeEntryInteresting env below (subBase base later ++ x) ps).toInt →
        OnlyExcluded ps (subBase base later ++ x) below (treeEntryInteresting env below (subBase base later ++ x) ps)
  interesting : treeEntryInteresting env entry base ps = .allEntriesInteresting →
    1 ≤ (treeEntryInteresting env later base ps).toInt
  interesting_below : treeEntryInteresting env entry base ps = .allEntriesInteresting →
    isDir later.mode = true → ∀ (x : List UInt8) (below : TreeEntry),
      1 ≤ (treeEntryInteresting env below (subBase base later ++ x) ps).toInt

lemma subBase_eq (base : List UInt8) (entry : TreeEntry) : subBase base entry = base ++ (entry.path ++ [slash]) :=
  List.append_assoc ..

lemma le_treeKey (entry : TreeEntry) : entry.path ≤ treeKey entry.path entry.mode := by
  rw [treeKey]
  split_ifs
  · exact (lt_append_of_ne_nil entry.path (List.cons_ne_nil slash [])).le
  · rw [List.append_nil]

lemma restSound (hplain : Plain ps) (hbase : BaseOk base) {entry later : TreeEntry} (hnul : 0 ∉ entry.path)
    (hnul' : 0 ∉ later.path) (hlt : baseNameCompare entry.path entry.mode later.path later.mode < 0) :
    RestSound env ps base entry later := by
  have hkey : entry.path < treeKey later.path later.mode := (le_treeKey entry).trans_lt (treeKey_lt hnul hnul' hlt)
  constructor
  case notInteresting =>
    intro h hrow
    obtain ⟨hne, hpassed⟩ | hexcluded := treeEntryInteresting_allEntriesNot hplain hbase h
    · rw [treeEntryInteresting_eq] at hrow
      exact absurd (rowResult_le (hpassed.next hplain hne hkey)) (not_le.mpr (Int.lt_of_lt_of_le zero_lt_one hrow))
    · exact hexcluded.only hplain hrow
  case notInteresting_below =>
    intro h hdir x below hrow
    obtain ⟨hne, hpassed⟩ | hexcluded := treeEntryInteresting_allEntriesNot hplain hbase h
    · rw [treeEntryInteresting_eq] at hrow
      exact absurd (rowResult_le (hpassed.below hplain hne hkey hdir x))
        (not_le.mpr (Int.lt_of_lt_of_le zero_lt_one hrow))
    · rw [subBase_eq, List.append_assoc] at hrow ⊢
      exact (hexcluded.append hplain _).only hplain hrow
  case interesting =>
    intro h
    obtain ⟨hcovers, hnegative⟩ := treeEntryInteresting_allEntries hplain hbase h
    rw [treeEntryInteresting_eq]
    exact le_rowResult (hcovers.doMatch hplain later)
      (hnegative.imp_right fun hpassed => hpassed.2.next hplain hpassed.1 hkey)
  case interesting_below =>
    intro h hdir x below
    obtain ⟨hcovers, hnegative⟩ := treeEntryInteresting_allEntries hplain hbase h
    rw [treeEntryInteresting_eq]
    refine le_rowResult ?_ (hnegative.imp_right fun hpassed => hpassed.2.below hplain hpassed.1 hkey hdir x)
    rw [subBase_eq, List.append_assoc]
    exact (hcovers.append hplain _).doMatch hplain below

mutual

/-- The paths and the modes of the entries that are selected if every entry is evaluated. -/
def selectEntries (env : Surroundings) (ps : Pathspec) (base : List UInt8) : List TreeNode → List (List UInt8 × Nat)
  | [] => []
  | node :: nodes =>
    (if 1 ≤ (treeEntryInteresting env node.entry base ps).toInt then selectNode env ps base node else []) ++
      selectEntries env ps base nodes

def selectNode (env : Surroundings) (ps : Pathspec) (base : List UInt8) : TreeNode → List (List UInt8 × Nat)
  | .node entry children =>
    if isDir entry.mode then selectEntries env ps (subBase base entry) children else [(base ++ entry.path, entry.mode)]

end

/-- The entries stand in the order of a tree, at every level, and have names without NUL. -/
inductive CanonicalNodes : List TreeNode → Prop
  | nil : CanonicalNodes []
  | cons {entry : TreeEntry} {children nodes : List TreeNode} (hnul : 0 ∉ entry.path)
      (hlt : ∀ node ∈ nodes, baseNameCompare entry.path entry.mode node.entry.path node.entry.mode < 0)
      (hchildren : CanonicalNodes children) (hnodes : CanonicalNodes nodes) : CanonicalNodes (.node entry children :: nodes)

lemma CanonicalNodes.nul {nodes : List TreeNode} (h : CanonicalNodes nodes) : ∀ node ∈ nodes, 0 ∉ node.entry.path := by
  induction h with
  | nil => simp
  | cons hnul _ _ _ _ ih => exact List.forall_mem_cons.mpr ⟨hnul, ih⟩

lemma baseOk_subBase (base : List UInt8) (entry : TreeEntry) : BaseOk (subBase base entry) :=
  .inr (by rw [subBase, List.getLast?_concat])

mutual

lemma selectEntries_excluded (hplain : Plain ps) :
    ∀ (nodes : List TreeNode) (base : List UInt8), Excluded ps base → selectEntries env ps base nodes = []
  | [], _, _ => by rw [selectEntries]
  | node :: nodes, base, h => by
    rw [selectEntries, selectEntries_excluded hplain nodes base h, List.append_nil]
    split_ifs with hrow
    · exact selectNode_excluded hplain node base h (h.only hplain hrow).1
    · rfl

lemma selectNode_excluded (hplain : Plain ps) :
    ∀ (node : TreeNode) (base : List UInt8), Excluded ps base → isDir node.entry.mode = true →
      selectNode env ps base node = []
  | .node entry children, base, h, hdir => by
    rw [selectNode, if_pos (show isDir entry.mode = true from hdir), subBase_eq]
    exact selectEntries_excluded hplain children _ (h.append hplain _)

end

lemma selectEntries_none {nodes : List TreeNode}
    (h : ∀ node ∈ nodes, (treeEntryInteresting env node.entry base ps).toInt ≤ 0) : selectEntries env ps base nodes = [] := by
  induction nodes with
  | nil => rw [selectEntries]
  | cons node nodes ih =>
    obtain ⟨hnode, hnodes⟩ := List.forall_mem_cons.mp h
    rw [selectEntries, if_neg (not_le.mpr (Int.lt_of_le_of_lt hnode zero_lt_one)), ih hnodes, List.append_nil]

lemma selectEntries_stop (hplain : Plain ps) (hbase : BaseOk base) {node : TreeNode} {nodes : List TreeNode}
    (hcanonical : CanonicalNodes (node :: nodes))
    (h : treeEntryInteresting env node.entry base ps = .allEntriesNotInteresting) :
    selectEntries env ps base (node :: nodes) = [] := by
  obtain ⟨hne, hpassed⟩ | hexcluded := treeEntryInteresting_allEntriesNot hplain hbase h
  · refine selectEntries_none (List.forall_mem_cons.mpr ⟨by rw [h]; decide, fun later hmem => ?_⟩)
    cases hcanonical with
    | cons hnul hlt hchildren hnodes =>
      have hkey := (le_treeKey _).trans_lt (treeKey_lt hnul (hnodes.nul later hmem) (hlt later hmem))
      rw [treeEntryInteresting_eq]
      exact rowResult_le (hpassed.next hplain hne hkey)
  · exact selectEntries_excluded hplain _ _ hexcluded

structure Answered (env : Surroundings) (ps : Pathspec) (base : List UInt8) (node : TreeNode) (nodes : List TreeNode)
    (answer : Interesting) : Prop where
  stop : answer = .allEntriesNotInteresting → selectEntries env ps base (node :: nodes) = []
  skip : answer = .entryNotInteresting → ¬1 ≤ (treeEntryInteresting env node.entry base ps).toInt
  take : answer ≠ .allEntriesNotInteresting → answer ≠ .entryNotInteresting →
    1 ≤ (treeEntryInteresting env node.entry base ps).toInt
  all : answer = .allEntriesInteresting → ∀ later ∈ nodes, 1 ≤ (treeEntryInteresting env later.entry base ps).toInt

lemma answered (hplain : Plain ps) (hbase : BaseOk base) {node : TreeNode} {nodes : List TreeNode}
    (hcanonical : CanonicalNodes (node :: nodes)) {matched : Interesting}
    (hall : matched = .allEntriesInteresting →
      ∀ later ∈ node :: nodes, 1 ≤ (treeEntryInteresting env later.entry base ps).toInt) :
    Answered env ps base node nodes
      (if matched ≠ .allEntriesInteresting then treeEntryInteresting env node.entry base ps else matched) := by
  by_cases hmatched : matched = .allEntriesInteresting
  · rw [if_neg (not_not.mpr hmatched)]
    obtain ⟨hnode, hnodes⟩ := List.forall_mem_cons.mp (hall hmatched)
    constructor
    case stop => rw [hmatched]; exact fun h => by cases h
    case skip => rw [hmatched]; exact fun h => by cases h
    case take => exact fun _ _ => hnode
    case all => exact fun _ => hnodes
  · rw [if_pos hmatched]
    constructor
    case stop => exact selectEntries_stop hplain hbase hcanonical
    case skip =>
      intro h
      rw [h]
      decide
    case take =>
      intro hstop hskip
      cases hrow : treeEntryInteresting env node.entry base ps with
      | allEntriesNotInteresting => exact absurd hrow hstop
      | entryNotInteresting => exact absurd hrow hskip
      | entryInteresting => decide
      | allEntriesInteresting => decide
    case all =>
      intro h later hmem
      cases hcanonical with
      | cons hnul hlt hchildren hnodes =>
        exact (restSound hplain hbase hnul (hnodes.nul later hmem) (hlt later hmem)).interesting h

lemma le_of_matchBefore (hplain : Plain ps) (h : matchBefore ps = .allEntriesInteresting) (base : List UInt8)
    (entry : TreeEntry) : 1 ≤ (treeEntryInteresting env entry base ps).toInt := by
  have hnil : ps.items = [] := by
    by_contra hne
    rw [matchBefore, if_neg hne] at h
    cases h
  have hmagic : ps.excludeMagic = false := Bool.eq_false_iff.mpr fun hmagic => items_ne_nil hmagic hnil
  rw [treeEntryInteresting_eq]
  exact le_rowResult (by rw [doMatch_nil hplain hnil]; decide) (.inl hmagic)

def withoutGitlinks (selected : List (List UInt8 × Nat)) : List (List UInt8 × Nat) :=
  selected.filter fun entry => !isGitlink entry.2

lemma processEntries_eq (hplain : Plain ps) {nodes : List TreeNode} (hcanonical : CanonicalNodes nodes)
    {base : List UInt8} (hbase : BaseOk base) {matched : Interesting}
    (hall : matched = .allEntriesInteresting →
      ∀ later ∈ nodes, 1 ≤ (treeEntryInteresting env later.entry base ps).toInt) :
    processEntries env ps base matched nodes = withoutGitlinks (selectEntries env ps base nodes) := by
  induction hcanonical generalizing base matched with
  | nil => rw [processEntries, selectEntries, withoutGitlinks, List.filter_nil]
  | @cons entry children nodes hnul hlt hchildren hnodes ihchildren ihnodes =>
    have hanswer := answered hplain hbase (.cons hnul hlt hchildren hnodes) hall
    rw [processEntries]
    generalize (if matched ≠ .allEntriesInteresting then
      treeEntryInteresting env (TreeNode.node entry children).entry base ps else matched) = answer at hanswer ⊢
    split_ifs with hstop hskip
    · rw [hanswer.stop hstop, withoutGitlinks, List.filter_nil]
    · rw [ihnodes hbase hanswer.all, selectEntries, if_neg (hanswer.skip hskip), List.nil_append]
    · rw [ihnodes hbase hanswer.all, selectEntries, if_pos (hanswer.take hstop hskip), withoutGitlinks,
        withoutGitlinks, List.filter_append]
      congr 1
      rw [processNode, selectNode]
      split_ifs with hdir hgitlink
      · exact ihchildren (baseOk_subBase base entry) fun h later _ => le_of_matchBefore hplain h _ _
      · rw [List.filter_cons_of_neg (by simp [hgitlink]), List.filter_nil]
      · rw [List.filter_cons_of_pos (by simp [hgitlink]), List.filter_nil]

lemma readEntries_eq (hplain : Plain ps) {nodes : List TreeNode} (hcanonical : CanonicalNodes nodes)
    {base : List UInt8} (hbase : BaseOk base) {retval : Interesting}
    (hall : retval = .allEntriesInteresting →
      ∀ later ∈ nodes, 1 ≤ (treeEntryInteresting env later.entry base ps).toInt) :
    readEntries env ps base retval nodes = selectEntries env ps base nodes := by
  induction hcanonical generalizing base retval with
  | nil => rw [readEntries, selectEntries]
  | @cons entry children nodes hnul hlt hchildren hnodes ihchildren ihnodes =>
    have hanswer := answered hplain hbase (.cons hnul hlt hchildren hnodes) hall
    rw [readEntries]
    generalize (if retval ≠ .allEntriesInteresting then
      treeEntryInteresting env (TreeNode.node entry children).entry base ps else retval) = answer at hanswer ⊢
    by_cases hstop : answer = .allEntriesNotInteresting
    · rw [if_pos hstop, hanswer.stop hstop]
    by_cases hskip : answer = .entryNotInteresting
    · rw [if_neg hstop, if_pos hskip, ihnodes hbase hanswer.all, selectEntries, if_neg (hanswer.skip hskip),
        List.nil_append]
    · have hnext : (if isDir (TreeNode.node entry children).entry.mode = true then .entryNotInteresting else answer) =
          Interesting.allEntriesInteresting →
          ∀ later ∈ nodes, 1 ≤ (treeEntryInteresting env later.entry base ps).toInt := by
        intro h
        split_ifs at h
        exact hanswer.all h
      rw [if_neg hstop, if_neg hskip, ihnodes hbase hnext, selectEntries, if_pos (hanswer.take hstop hskip)]
      congr 1
      rw [readNode, selectNode]
      split_ifs with hdir
      · exact ihchildren (baseOk_subBase base entry) fun h => by cases h
      · rfl

/-- For a plain pathspec the results that hold for the rest of a tree are sound, but for directories below an
exclude item, which may still be looked into; so the traversals that obey the results select what is selected if
every entry is evaluated. -/
theorem treeEntryInteresting_prunes (env : Surroundings) (ps : Pathspec) (hplain : Plain ps) (base : List UInt8)
    (hbase : BaseOk base) :
    (∀ entry later : TreeEntry, 0 ∉ entry.path → 0 ∉ later.path →
      baseNameCompare entry.path entry.mode later.path later.mode < 0 → RestSound env ps base entry later) ∧
      ∀ nodes : List TreeNode, CanonicalNodes nodes →
        readTreeAt env ps base nodes = selectEntries env ps base nodes ∧
          processTreeContents env ps base nodes = withoutGitlinks (selectEntries env ps base nodes) := by
  refine ⟨fun entry later hnul hnul' hlt => restSound hplain hbase hnul hnul' hlt, fun nodes hcanonical => ⟨?_, ?_⟩⟩
  · exact readEntries_eq hplain hcanonical hbase fun h => by cases h
  · exact processEntries_eq hplain hcanonical hbase fun h later _ => le_of_matchBefore hplain h _ _

def literalSurroundings : Surroundings where
  wildmatch := fun _ _ _ _ => false
  matchPathspecAttrs := fun _ _ => false

def literalItem (pattern : List UInt8) (exclude : Bool) : PathspecItem where
  pattern := pattern
  prefixLen := 0
  nowildcardLen := pattern.length
  exclude := exclude
  icase := false
  glob := false
  onestar := false
  attrMatchNr := 0
  nowildcardLen_le := le_rfl
  prefixLen_le := Nat.zero_le _

/-- Everything but `d`, and again but `d/s/x`. -/
def excludedTwice : Pathspec where
  items := [literalItem [] false, literalItem [0x64] true, literalItem [0x64, slash, 0x73, slash, 0x78] true]
  hasWildcard := false
  recursive := true
  recurseSubmodules := false
  excludeMagic := true
  maxDepthMagic := false
  maxDepth := -1
  hasWildcard_iff := by simp [literalItem]
  excludeMagic_iff := by simp [literalItem]

lemma plain_excludedTwice : Plain excludedTwice where
  recursive := rfl
  depth := .inl rfl
  icase := by simp [excludedTwice, literalItem]
  attr := by simp [excludedTwice, literalItem]

def fileA : TreeEntry := ⟨[0x61], 0o100644, []⟩

def directoryS : TreeEntry := ⟨[0x73], 0o040000, []⟩

lemma canonical_excluded : CanonicalNodes [.node fileA [], .node directoryS [.node fileA []]] :=
  .cons (by decide) (by simp [TreeNode.entry, baseNameCompare, fileA, directoryS]) .nil
    (.cons (by decide) (by simp) (.cons (by decide) (by simp) .nil .nil) .nil)

def baseD : List UInt8 := [0x64, slash]

theorem treeEntryInteresting_prunes_excluded :
    RestSound literalSurroundings excludedTwice baseD fileA directoryS ∧
      readTreeAt literalSurroundings excludedTwice baseD [.node fileA [], .node directoryS [.node fileA []]] =
        selectEntries literalSurroundings excludedTwice baseD [.node fileA [], .node directoryS [.node fileA []]] :=
  ⟨(treeEntryInteresting_prunes literalSurroundings excludedTwice plain_excludedTwice baseD (.inr rfl)).1
      fileA directoryS (by decide) (by decide) (by decide),
    ((treeEntryInteresting_prunes literalSurroundings excludedTwice plain_excludedTwice baseD (.inr rfl)).2
      _ canonical_excluded).1⟩

/-- The file `d/a` ends the traversal, though the later directory `d/s` is interesting. -/
theorem treeEntryInteresting_later :
    Plain excludedTwice ∧ BaseOk baseD ∧
      baseNameCompare fileA.path fileA.mode directoryS.path directoryS.mode < 0 ∧
      treeEntryInteresting literalSurroundings fileA baseD excludedTwice = .allEntriesNotInteresting ∧
      treeEntryInteresting literalSurroundings directoryS baseD excludedTwice = .entryInteresting :=
  ⟨plain_excludedTwice, .inr rfl, by decide, by decide, by decide⟩

end GitCore.Trees
