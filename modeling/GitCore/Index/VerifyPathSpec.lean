import GitCore.Index.VerifyPath
import Mathlib.Data.List.DropRight
import Mathlib.Data.List.GetD

/-!
# What accepted paths cannot contain

The forms in which a file system may take a component for `.git` or `.gitmodules`, and that no
component of an accepted path has one of them.
-/

namespace GitCore.VerifyPath

def foldCase (w : List UInt8) : List UInt8 := w.map toLower

/-- A component as NTFS has it: cut at a colon, without dots and spaces at its end, in lower case. -/
def ntfsFold (w : List UInt8) : List UInt8 :=
  foldCase ((w.takeWhile (· ≠ colon)).rdropWhile fun c => c = dot || c = space)

def encodeIgnored (code : Nat) : List UInt8 :=
  [UInt8.ofNat (0xe0 + code / 4096), UInt8.ofNat (0x80 + code / 64 % 64), UInt8.ofNat (0x80 + code % 64)]

def stripIgnored : List UInt8 → List UInt8
  | a :: b :: c :: w =>
    if [a, b, c] ∈ hfsIgnored.map encodeIgnored then stripIgnored w else a :: stripIgnored (b :: c :: w)
  | w => w
termination_by w => w.length

def hfsFold (w : List UInt8) : List UInt8 := foldCase (stripIgnored w)

/-- What NTFS may take for `.gitmodules`: the name, or a short name of either kind. -/
def IsNtfsGitmodules (w : List UInt8) : Prop :=
  w = dot :: gitmodulesName ∨ (∃ k, 49 ≤ k ∧ k ≤ 52 ∧ w = gitmodulesName.take 6 ++ [tilde, k]) ∨
    ∃ p d digits, w = gitmodulesShortname.take p ++ tilde :: d :: digits ∧ 49 ≤ d ∧ d ≤ 57 ∧
      (∀ c ∈ digits, 48 ≤ c ∧ c ≤ 57) ∧ p + digits.length = 6

def protectedNames (mode : Nat) : List (List UInt8) :=
  (dot :: gitName) :: if sIsLnk mode = true then [dot :: gitmodulesName] else []

def component (s : List UInt8) : List UInt8 := s.takeWhile (· ≠ slash)

def ntfsComponent (s : List UInt8) : List UInt8 := s.takeWhile fun c => !isXplatformDirSep c

def ComponentAt (path s : List UInt8) : Prop := path = s ∨ ∃ p, path = p ++ slash :: s

/-- What is left of a path behind a backslash that is not in front of a component. -/
def BackslashAt (path s : List UInt8) : Prop := ∃ p c, path = p ++ c :: backslash :: s ∧ c ≠ slash

section Ntfs

lemma onlySpacesAndPeriods_of {tail : List UInt8} (h : ∀ c ∈ tail.takeWhile (· ≠ colon), c = dot ∨ c = space) :
    onlySpacesAndPeriods tail = true := by
  induction tail with
  | nil => rfl
  | cons c tail ih =>
    rw [onlySpacesAndPeriods]
    by_cases hcolon : c = colon
    · rw [if_pos (.inr hcolon)]
    · rw [List.takeWhile_cons_of_pos (by simpa using hcolon)] at h
      have hc := h c List.mem_cons_self
      split_ifs with h0 hother
      · rfl
      · rcases hc with hc | hc
        · exact absurd hc hother.2
        · exact absurd hc hother.1
      · exact ih fun x hx => h x (List.mem_cons_of_mem _ hx)

lemma ntfsDotgitEnd_of {tail : List UInt8}
    (h : ∀ c ∈ (tail.takeWhile fun c => !isXplatformDirSep c).takeWhile (· ≠ colon), c = dot ∨ c = space) :
    ntfsDotgitEnd tail = true := by
  induction tail with
  | nil => rfl
  | cons c tail ih =>
    rw [ntfsDotgitEnd]
    by_cases hsep : isXplatformDirSep c = true
    · rw [if_pos (.inr (.inl hsep))]
    · rw [Bool.not_eq_true] at hsep
      rw [List.takeWhile_cons_of_pos (by rw [hsep]; rfl)] at h
      by_cases hcolon : c = colon
      · rw [if_pos (.inr (.inr hcolon))]
      · rw [List.takeWhile_cons_of_pos (by simpa using hcolon)] at h
        have hc := h c List.mem_cons_self
        split_ifs with h0 hother
        · rfl
        · rcases hc with hc | hc
          · exact absurd hc hother.1
          · exact absurd hc hother.2
        · exact ih fun x hx => h x (List.mem_cons_of_mem _ hx)

lemma exists_of_ntfsFold {w name : List UInt8} (h : ntfsFold w = name) :
    ∃ head tail, w = head ++ tail ∧ foldCase head = name ∧ ∀ c ∈ tail.takeWhile (· ≠ colon), c = dot ∨ c = space := by
  set cut := w.takeWhile (· ≠ colon) with hcut
  have hsplit := @List.rdropWhile_append_rtakeWhile _ (fun c => decide (c = dot) || decide (c = space)) cut
  refine ⟨cut.rdropWhile fun c => c = dot || c = space,
    cut.rtakeWhile (fun c => c = dot || c = space) ++ w.dropWhile (· ≠ colon), ?_, h, fun c hc => ?_⟩
  · rw [← List.append_assoc, hsplit, hcut, List.takeWhile_append_dropWhile]
  · have hnone : (w.dropWhile (· ≠ colon)).takeWhile (· ≠ colon) = [] := by
      rw [List.takeWhile_eq_nil_iff]
      intro hpos
      exact List.dropWhile_get_zero_not _ _ hpos
    have hall : ∀ x ∈ cut.rtakeWhile (fun c => c = dot || c = space), decide (x ≠ colon) = true := by
      intro x hx
      have hmem : x ∈ cut := (List.rtakeWhile_suffix (fun c => c = dot || c = space) cut).mem hx
      exact @List.mem_takeWhile_imp _ (fun c => decide (c ≠ colon)) w x hmem
    rw [List.takeWhile_append_of_pos hall, hnone, List.append_nil] at hc
    have himp := List.mem_rtakeWhile_imp hc
    rw [Bool.or_eq_true, decide_eq_true_iff, decide_eq_true_iff] at himp
    exact himp

lemma isLetter_of_toLower {c n : UInt8} (h : toLower c = n) : isLetter c n = true := by
  rw [toLower] at h
  rw [isLetter, Bool.or_eq_true, decide_eq_true_iff, decide_eq_true_iff]
  split_ifs at h with hupper
  · refine .inr ?_
    rw [← h, UInt8.add_sub_cancel]
  · exact .inl h

lemma eq_of_toLower {c n : UInt8} (h : toLower c = n) (hn : ¬(97 ≤ n ∧ n ≤ 122)) : c = n := by
  rw [toLower] at h
  split_ifs at h with hupper
  · refine absurd ?_ hn
    rw [← h, UInt8.le_iff_toNat_le, UInt8.le_iff_toNat_le, UInt8.toNat_add]
    rw [UInt8.le_iff_toNat_le, UInt8.le_iff_toNat_le] at hupper
    simp only [UInt8.reduceToNat] at hupper ⊢
    omega
  · exact h

lemma foldCase_cons_iff {head : List UInt8} {n : UInt8} {name : List UInt8} :
    foldCase head = n :: name ↔ ∃ c rest, head = c :: rest ∧ toLower c = n ∧ foldCase rest = name :=
  List.map_eq_cons_iff

lemma foldCase_nil_iff {head : List UInt8} : foldCase head = [] ↔ head = [] := List.map_eq_nil_iff

lemma takeWhile_behind {p : UInt8 → Bool} {s head tail : List UInt8} (h : s.takeWhile p = head ++ tail) :
    ∃ rest, s = head ++ rest ∧ rest.takeWhile p = tail := by
  refine ⟨tail ++ s.dropWhile p, ?_, ?_⟩
  · rw [← List.append_assoc, ← h, List.takeWhile_append_dropWhile]
  · have hs : s = head ++ (tail ++ s.dropWhile p) := by
      rw [← List.append_assoc, ← h, List.takeWhile_append_dropWhile]
    have hall : ∀ x ∈ head, p x = true := fun x hx => List.mem_takeWhile_imp (by
      rw [h]
      exact List.mem_append_left _ hx)
    have htake := @List.takeWhile_append_of_pos _ p head (tail ++ s.dropWhile p) hall
    rw [← hs, h] at htake
    exact (List.append_cancel_left htake).symm

variable {s : List UInt8}

theorem isNtfsDotgit_of_fold
    (h : ntfsFold (ntfsComponent s) ∈ [dot :: gitName, gitName ++ [tilde, 49]]) :
    isNtfsDotgit s = true := by
  rw [List.mem_cons, List.mem_singleton] at h
  rcases h with h | h
  · obtain ⟨head, tail, hw, hhead, htail⟩ := exists_of_ntfsFold h
    obtain ⟨rest, hs, hrest⟩ := takeWhile_behind hw
    simp only [foldCase_cons_iff, foldCase_nil_iff] at hhead
    obtain ⟨c0, _, rfl, h0, c1, _, rfl, h1, c2, _, rfl, h2, c3, _, rfl, h3, rfl⟩ := hhead
    have hdot := eq_of_toLower h0 (by decide)
    subst hs
    rw [isNtfsDotgit, if_pos (show charAt ([c0, c1, c2, c3] ++ rest) 0 = dot from hdot), if_pos]
    · exact ntfsDotgitEnd_of (by rw [← hrest] at htail; exact htail)
    · simp only [charAt, List.cons_append, List.nil_append, List.getD_cons_succ, List.getD_cons_zero,
        isLetter_of_toLower h1, isLetter_of_toLower h2, isLetter_of_toLower h3, Bool.and_self]
  · obtain ⟨head, tail, hw, hhead, htail⟩ := exists_of_ntfsFold h
    obtain ⟨rest, hs, hrest⟩ := takeWhile_behind hw
    simp only [gitName, List.cons_append, List.nil_append, foldCase_cons_iff, foldCase_nil_iff] at hhead
    obtain ⟨c0, _, rfl, h0, c1, _, rfl, h1, c2, _, rfl, h2, c3, _, rfl, h3, c4, _, rfl, h4, rfl⟩ := hhead
    have htilde := eq_of_toLower h3 (by decide)
    have hone := eq_of_toLower h4 (by decide)
    have hletter := isLetter_of_toLower h0
    have hnotDot : c0 ≠ dot := by
      rintro rfl
      exact absurd hletter (by decide)
    subst hs
    rw [isNtfsDotgit, if_neg (show ¬charAt ([c0, c1, c2, c3, c4] ++ rest) 0 = dot from hnotDot),
      if_pos (show isLetter (charAt ([c0, c1, c2, c3, c4] ++ rest) 0) 103 = true from hletter), if_pos]
    · exact ntfsDotgitEnd_of (by rw [← hrest] at htail; exact htail)
    · simp only [charAt, List.cons_append, List.nil_append, List.getD_cons_succ, List.getD_cons_zero,
        isLetter_of_toLower h1, isLetter_of_toLower h2, htilde, hone, decide_true, Bool.and_self]

lemma strncasecmpEq_of {head name : List UInt8} (h : foldCase head = foldCase name) (rest rest' : List UInt8) :
    strncasecmpEq head.length (head ++ rest) (name ++ rest') = true := by
  induction head generalizing name with
  | nil => rfl
  | cons c head ih =>
    cases name with
    | nil => cases h
    | cons n name =>
      obtain ⟨hc, hrest⟩ := List.cons_eq_cons.mp h
      rw [List.length_cons, strncasecmpEq]
      have hsame : ¬toLower (charAt (c :: head ++ rest) 0) ≠ toLower (charAt (n :: name ++ rest') 0) := not_not.mpr hc
      rw [if_neg hsame]
      split_ifs
      · rfl
      · exact ih hrest

lemma shortname_byte {c : UInt8} {i : Nat} (hi : i < 6) (h : toLower c = charAt gitmodulesShortname i) :
    c ≠ 0 ∧ c ≠ tilde ∧ c &&& 0x80 = 0 := by
  have hlower : ∀ j < 6, charAt gitmodulesShortname j ≠ 0 ∧ charAt gitmodulesShortname j ≠ tilde ∧
      charAt gitmodulesShortname j &&& 0x80 = 0 := by decide
  have hupper : ∀ j < 6, charAt gitmodulesShortname j - 32 ≠ 0 ∧ charAt gitmodulesShortname j - 32 ≠ tilde ∧
      (charAt gitmodulesShortname j - 32) &&& 0x80 = 0 := by decide
  have hletter := isLetter_of_toLower h
  rw [isLetter, Bool.or_eq_true, decide_eq_true_iff, decide_eq_true_iff] at hletter
  rcases hletter with rfl | rfl
  · exact hlower i hi
  · exact hupper i hi

lemma ntfsShortname_digits {name shortnamePrefix : List UInt8} {i : Nat} (hi : i ≤ 8)
    (hdigits : ∀ j, i ≤ j → j < 8 → 48 ≤ charAt name j ∧ charAt name j ≤ 57)
    (hend : onlySpacesAndPeriods (name.drop 8) = true) : ntfsShortname name shortnamePrefix i true = true := by
  induction hn : 8 - i generalizing i with
  | zero =>
    have hi8 : i = 8 := by omega
    subst hi8
    rw [ntfsShortname, if_neg (lt_irrefl 8)]
    exact hend
  | succ n ih =>
    have hlt : i < 8 := by omega
    obtain ⟨hlow, hhigh⟩ := hdigits i (le_refl i) hlt
    have hnonzero : charAt name i ≠ 0 := by
      intro h0
      rw [h0] at hlow
      exact absurd hlow (by decide)
    rw [ntfsShortname, if_pos hlt, if_neg hnonzero, if_pos rfl,
      if_neg (not_or.mpr ⟨UInt8.not_lt.mpr hlow, UInt8.not_lt.mpr hhigh⟩)]
    exact ih hlt (fun j hj => hdigits j (by omega)) (by omega)

lemma ntfsShortname_prefix {name : List UInt8} {p i : Nat} (hi : i ≤ p) (hp : p ≤ 6)
    (hsame : ∀ j, i ≤ j → j < p → toLower (charAt name j) = charAt gitmodulesShortname j)
    (htilde : charAt name p = tilde) (hlow : 49 ≤ charAt name (p + 1)) (hhigh : charAt name (p + 1) ≤ 57)
    (hdigits : ∀ j, p + 2 ≤ j → j < 8 → 48 ≤ charAt name j ∧ charAt name j ≤ 57)
    (hend : onlySpacesAndPeriods (name.drop 8) = true) :
    ntfsShortname name gitmodulesShortname i false = true := by
  induction hn : p - i generalizing i with
  | zero =>
    have hip : i = p := by omega
    subst hip
    have hlt : i < 8 := by omega
    rw [ntfsShortname, if_pos hlt, if_neg (by rw [htilde]; decide), if_neg Bool.false_ne_true, if_pos htilde,
      if_neg (not_or.mpr ⟨UInt8.not_lt.mpr hlow, UInt8.not_lt.mpr hhigh⟩)]
    exact ntfsShortname_digits (by omega) hdigits hend
  | succ n ih =>
    have hlt : i < p := by omega
    have hc := hsame i (le_refl i) hlt
    obtain ⟨hnonzero, hnotTilde, hascii⟩ := shortname_byte (by omega) hc
    have hlt8 : i < 8 := by omega
    have hlt6 : ¬6 ≤ i := by omega
    rw [ntfsShortname, if_pos hlt8, if_neg hnonzero, if_neg Bool.false_ne_true, if_neg hnotTilde, if_neg hlt6,
      if_neg (not_not.mpr hascii), if_neg (not_not.mpr hc)]
    exact ih hlt (fun j hj => hsame j (by omega)) (by omega)

lemma charAt_append (head tail : List UInt8) (i : Nat) : charAt (head ++ tail) (head.length + i) = charAt tail i := by
  rw [charAt, List.getD_append_right _ _ _ _ (Nat.le_add_right _ _), Nat.add_sub_cancel_left, charAt]

lemma charAt_append_of_lt {head : List UInt8} {i : Nat} (tail : List UInt8) (hi : i < head.length) :
    charAt (head ++ tail) i = charAt head i :=
  List.getD_append _ _ _ _ hi

lemma charAt_foldCase (w : List UInt8) (i : Nat) : charAt (foldCase w) i = toLower (charAt w i) :=
  List.getD_map w 0 toLower

lemma isNtfsDotgitmodules_long (h : ntfsFold s = dot :: gitmodulesName) :
    isNtfsDotgitmodules s = true := by
  obtain ⟨head, tail, rfl, hhead, htail⟩ := exists_of_ntfsFold h
  obtain ⟨c0, name, rfl, h0, hname⟩ := foldCase_cons_iff.mp hhead
  have hdot := eq_of_toLower h0 (by decide)
  have hlen : name.length = gitmodulesName.length := by rw [← hname, foldCase, List.length_map]
  have hcmp := @strncasecmpEq_of name gitmodulesName (hname.trans (by decide)) tail []
  rw [List.append_nil, hlen] at hcmp
  have hcond : (charAt (c0 :: name ++ tail) 0 = dot &&
      strncasecmpEq gitmodulesName.length (c0 :: name ++ tail).tail gitmodulesName) = true := by
    rw [List.cons_append, List.tail_cons, hcmp, hdot]
    rfl
  rw [isNtfsDotgitmodules, isNtfsDotGeneric, if_pos hcond, ← hlen, ← @List.length_cons _ c0 name, List.drop_left' rfl]
  exact onlySpacesAndPeriods_of htail

lemma isNtfsDotgitmodules_short {k : UInt8} (hk : 49 ≤ k) (hk' : k ≤ 52)
    (h : ntfsFold s = gitmodulesName.take 6 ++ [tilde, k]) : isNtfsDotgitmodules s = true := by
  obtain ⟨head, tail, rfl, hhead, htail⟩ := exists_of_ntfsFold h
  obtain ⟨six, two, rfl, hsix, htwo⟩ := List.map_eq_append_iff.mp hhead
  obtain ⟨c6, _, rfl, h6, c7, _, rfl, h7, hnil⟩ : ∃ c6 r6, two = c6 :: r6 ∧ toLower c6 = tilde ∧ ∃ c7 r7,
      r6 = c7 :: r7 ∧ toLower c7 = k ∧ foldCase r7 = [] := by
    obtain ⟨c6, r6, h6⟩ := foldCase_cons_iff.mp htwo
    obtain ⟨c7, r7, h7⟩ := foldCase_cons_iff.mp h6.2.2
    exact ⟨c6, r6, h6.1, h6.2.1, c7, r7, h7⟩
  rw [foldCase_nil_iff] at hnil
  subst hnil
  have hlen : six.length = 6 := by rw [← List.length_map (f := toLower), hsix]; rfl
  have htilde := eq_of_toLower h6 (by decide)
  have hk7 : c7 = k := eq_of_toLower h7 fun hletter => absurd (UInt8.le_trans hletter.1 hk') (by decide)
  have hnotDot : charAt (six ++ [c6, c7] ++ tail) 0 ≠ dot := by
    obtain ⟨c0, rest, rfl, h0, -⟩ := foldCase_cons_iff.mp hsix
    rintro (rfl : c0 = dot)
    exact absurd h0 (by decide)
  have hcmp := @strncasecmpEq_of six (gitmodulesName.take 6) (hsix.trans (by decide)) ([c6, c7] ++ tail)
    (gitmodulesName.drop 6)
  rw [hlen, ← List.append_assoc, List.take_append_drop] at hcmp
  have hcond : (strncasecmpEq 6 (six ++ [c6, c7] ++ tail) gitmodulesName && charAt (six ++ [c6, c7] ++ tail) 6 = tilde &&
      (49 ≤ charAt (six ++ [c6, c7] ++ tail) 7 && charAt (six ++ [c6, c7] ++ tail) 7 ≤ 52)) = true := by
    have hsixth := charAt_append six ([c6, c7] ++ tail) 0
    have hseventh := charAt_append six ([c6, c7] ++ tail) 1
    rw [hlen, ← List.append_assoc] at hsixth hseventh
    rw [hcmp, hsixth, hseventh]
    simp [charAt, htilde, hk7, hk, hk']
  rw [isNtfsDotgitmodules, isNtfsDotGeneric,
    if_neg (fun hc => hnotDot (of_decide_eq_true (Bool.and_eq_true_iff.mp hc).1)), if_pos hcond,
    List.drop_left' (by simp [hlen])]
  exact onlySpacesAndPeriods_of htail

lemma isNtfsDotgitmodules_fallback {p : Nat} {d : UInt8} {digits : List UInt8} (hd : 49 ≤ d)
    (hd' : d ≤ 57) (hdigits : ∀ c ∈ digits, 48 ≤ c ∧ c ≤ 57) (hp : p + digits.length = 6)
    (h : ntfsFold s = gitmodulesShortname.take p ++ tilde :: d :: digits) : isNtfsDotgitmodules s = true := by
  obtain ⟨head, tail, rfl, hhead, htail⟩ := exists_of_ntfsFold h
  have hend := onlySpacesAndPeriods_of htail
  have hshortLen : (gitmodulesShortname.take p).length = p := by
    rw [List.length_take]
    exact Nat.min_eq_left (show p ≤ 6 by omega)
  have hlen : head.length = 8 := by
    rw [← List.length_map (f := toLower)]
    exact (congrArg List.length hhead).trans (by simp [hshortLen]; omega)
  have hdrop : (head ++ tail).drop 8 = tail := List.drop_left' hlen
  have hat : ∀ j < 8, toLower (charAt (head ++ tail) j) = charAt (gitmodulesShortname.take p ++ tilde :: d :: digits) j := by
    intro j hj
    rw [charAt_append_of_lt tail (by omega), ← charAt_foldCase, hhead]
  have hbehind : ∀ i, p + i < 8 → toLower (charAt (head ++ tail) (p + i)) = charAt (tilde :: d :: digits) i := by
    intro i hi
    have happend := charAt_append (gitmodulesShortname.take p) (tilde :: d :: digits) i
    rw [hshortLen] at happend
    rw [hat (p + i) hi, happend]
  have hdigit : ∀ {c x : UInt8}, toLower c = x → x ≤ 57 → c = x := fun hc hx =>
    eq_of_toLower hc fun hletter => absurd (UInt8.le_trans hletter.1 hx) (by decide)
  have htilde : charAt (head ++ tail) p = tilde := eq_of_toLower (hbehind 0 (by omega)) (by decide)
  have hfirst : charAt (head ++ tail) (p + 1) = d := hdigit (hbehind 1 (by omega)) hd'
  have hothers : ∀ j, p + 2 ≤ j → j < 8 → 48 ≤ charAt (head ++ tail) j ∧ charAt (head ++ tail) j ≤ 57 := by
    intro j hj hj8
    obtain ⟨i, rfl⟩ := Nat.exists_eq_add_of_le hj
    have hi : i < digits.length := by omega
    have hfold : toLower (charAt (head ++ tail) (p + 2 + i)) = charAt digits i := by
      rw [Nat.add_assoc, hbehind (2 + i) (by omega), Nat.add_comm 2 i]
      rfl
    have hmem : charAt digits i ∈ digits := by
      rw [charAt, List.getD_eq_getElem _ _ hi]
      exact List.getElem_mem hi
    rw [hdigit hfold (hdigits _ hmem).2]
    exact hdigits _ hmem
  have hsame : ∀ j, 0 ≤ j → j < p → toLower (charAt (head ++ tail) j) = charAt gitmodulesShortname j := by
    intro j _ hj
    rw [hat j (by omega), charAt_append_of_lt _ (by omega), charAt, charAt, List.getD_eq_getElem?_getD,
      List.getElem?_take_of_lt hj, ← List.getD_eq_getElem?_getD]
  have hshort : ntfsShortname (head ++ tail) gitmodulesShortname 0 false = true := by
    refine ntfsShortname_prefix (Nat.zero_le p) (by omega) hsame htilde ?_ ?_ hothers ?_
    · rwa [hfirst]
    · rwa [hfirst]
    · rwa [hdrop]
  have hnotDot : charAt (head ++ tail) 0 ≠ dot := by
    intro h0
    cases p with
    | zero => exact absurd (htilde.symm.trans h0) (by decide)
    | succ p =>
      have hg := hsame 0 (le_refl 0) (Nat.succ_pos p)
      rw [h0] at hg
      exact absurd hg (by decide)
  rw [isNtfsDotgitmodules, isNtfsDotGeneric,
    if_neg (fun hc => hnotDot (of_decide_eq_true (Bool.and_eq_true_iff.mp hc).1))]
  split_ifs
  · rw [hdrop]
    exact hend
  · exact hshort

theorem isNtfsDotgitmodules_of_fold (h : IsNtfsGitmodules (ntfsFold s)) :
    isNtfsDotgitmodules s = true := by
  rcases h with h | ⟨k, hk, hk', h⟩ | ⟨p, d, digits, h, hd, hd', hdigits, hp⟩
  · exact isNtfsDotgitmodules_long h
  · exact isNtfsDotgitmodules_short hk hk' h
  · exact isNtfsDotgitmodules_fallback hd hd' hdigits hp h

end Ntfs

section Hfs

lemma ascii_of_toLower {c n : UInt8} (h : toLower c = n) (hn : n < 0x80) : c < 0x80 := by
  rw [toLower] at h
  split_ifs at h with hupper
  · exact UInt8.lt_of_le_of_lt hupper.2 (by decide)
  · rwa [h]

lemma pickOneUtf8Char_ascii {c : UInt8} (hc : c < 0x80) (s : List UInt8) :
    pickOneUtf8Char (c :: s) = some (c.toNat, s) := by
  have hfirst : charAt (c :: s) 0 < 0x80 := hc
  rw [pickOneUtf8Char, if_pos hfirst]
  rfl

lemma pickOneUtf8Char_encodeIgnored {code : Nat} (h : code ∈ hfsIgnored) (s : List UInt8) :
    pickOneUtf8Char (encodeIgnored code ++ s) = some (code, s) := by
  simp only [hfsIgnored, List.mem_cons, List.not_mem_nil, or_false] at h
  rcases h with rfl | rfl | rfl | rfl | rfl | rfl | rfl | rfl | rfl | rfl | rfl | rfl | rfl | rfl | rfl | rfl <;>
    simp +decide [pickOneUtf8Char, charAt, encodeIgnored]

lemma nextHfsChar_ascii {c : UInt8} (hc : c < 0x80) (s : List UInt8) : nextHfsChar (c :: s) = (c.toNat, s) := by
  have hkeep : c.toNat ∉ hfsIgnored := by
    intro hmem
    have hlarge : ∀ code ∈ hfsIgnored, 128 ≤ code := by decide
    have hlow := UInt8.lt_iff_toNat_lt.mp hc
    exact absurd (hlarge _ hmem) (not_le.mpr hlow)
  rw [nextHfsChar, dif_neg (List.cons_ne_nil c s)]
  split
  · next hnone => rw [pickOneUtf8Char_ascii hc] at hnone; cases hnone
  · next r hsome =>
    rw [pickOneUtf8Char_ascii hc] at hsome
    cases hsome
    exact if_neg hkeep

lemma nextHfsChar_ignored {a b c : UInt8} (h : [a, b, c] ∈ hfsIgnored.map encodeIgnored) (s : List UInt8) :
    nextHfsChar (a :: b :: c :: s) = nextHfsChar s := by
  obtain ⟨code, hcode, hbytes⟩ := List.mem_map.mp h
  have hpick := pickOneUtf8Char_encodeIgnored hcode s
  rw [hbytes] at hpick
  rw [nextHfsChar, dif_neg (List.cons_ne_nil _ _)]
  split
  · next hnone => rw [show a :: b :: c :: s = [a, b, c] ++ s from rfl, hpick] at hnone; cases hnone
  · next r hsome =>
    rw [show a :: b :: c :: s = [a, b, c] ++ s from rfl, hpick] at hsome
    cases hsome
    exact if_pos hcode

lemma nextHfsChar_of_strip {w : List UInt8} (tail : List UInt8) :
    (stripIgnored w = [] → nextHfsChar (w ++ tail) = nextHfsChar tail) ∧
      ∀ c v, stripIgnored w = c :: v → c < 0x80 → ∃ w', nextHfsChar (w ++ tail) = (c.toNat, w' ++ tail) ∧
        stripIgnored w' = v := by
  induction w using stripIgnored.induct with
  | case1 a b c w hignored ih =>
    rw [stripIgnored, if_pos hignored, List.cons_append, List.cons_append, List.cons_append, nextHfsChar_ignored hignored]
    exact ih
  | case2 a b c w hkept ih =>
    rw [stripIgnored, if_neg hkept]
    refine ⟨fun h => absurd h (List.cons_ne_nil _ _), fun x v h hx => ?_⟩
    obtain ⟨rfl, rfl⟩ := List.cons_eq_cons.mp h
    exact ⟨b :: c :: w, nextHfsChar_ascii hx _, rfl⟩
  | case3 w hshort =>
    have hstrip : stripIgnored w = w := by
      rw [stripIgnored]
      exact hshort
    rw [hstrip]
    refine ⟨fun h => ?_, fun x v h hx => ?_⟩
    · rw [h, List.nil_append]
    · subst h
      refine ⟨v, nextHfsChar_ascii hx _, ?_⟩
      match v with
      | [] => simp [stripIgnored]
      | [_] => simp [stripIgnored]
      | b :: c :: v => exact absurd rfl (hshort x b c v)

lemma nextHfsChar_end {tail : List UInt8} (h : tail = [] ∨ ∃ rest, tail = slash :: rest) :
    (nextHfsChar tail).1 = 0 ∨ (nextHfsChar tail).1 = slash.toNat := by
  rcases h with rfl | ⟨rest, rfl⟩
  · left
    rw [nextHfsChar, dif_pos rfl]
  · right
    rw [nextHfsChar_ascii (by decide)]

lemma hfsNeedle_of_fold {needle w tail : List UInt8} (hascii : ∀ n ∈ needle, n < 0x80) (h : hfsFold w = needle)
    (htail : tail = [] ∨ ∃ rest, tail = slash :: rest) : hfsNeedle needle (w ++ tail) = true := by
  induction needle generalizing w with
  | nil =>
    have hnone : stripIgnored w = [] := List.map_eq_nil_iff.mp h
    rw [hfsNeedle, (nextHfsChar_of_strip tail).1 hnone, Bool.or_eq_true, decide_eq_true_iff, decide_eq_true_iff]
    exact nextHfsChar_end htail
  | cons n needle ih =>
    obtain ⟨c, v, hstrip, hc, hv⟩ := foldCase_cons_iff.mp h
    have hsmall := ascii_of_toLower hc (hascii n List.mem_cons_self)
    obtain ⟨w', hnext, hw'⟩ := (nextHfsChar_of_strip tail).2 c v hstrip hsmall
    have hlow : ¬127 < c.toNat := not_lt.mpr (Nat.le_of_lt_succ (UInt8.lt_iff_toNat_lt.mp hsmall))
    rw [hfsNeedle, hnext]
    rw [if_neg hlow, UInt8.ofNat_toNat, if_neg (not_not.mpr hc)]
    exact ih (fun x hx => hascii x (List.mem_cons_of_mem _ hx)) (by rw [hfsFold, hw']; exact hv)

theorem isHfsDotGeneric_of_fold {needle w tail : List UInt8} (hascii : ∀ n ∈ needle, n < 0x80)
    (h : hfsFold w = dot :: needle) (htail : tail = [] ∨ ∃ rest, tail = slash :: rest) :
    isHfsDotGeneric (w ++ tail) needle = true := by
  obtain ⟨c, v, hstrip, hc, hv⟩ := foldCase_cons_iff.mp h
  have hdot : c = dot := eq_of_toLower hc (by decide)
  obtain ⟨w', hnext, hw'⟩ := (nextHfsChar_of_strip tail).2 c v hstrip (ascii_of_toLower hc (by decide))
  rw [isHfsDotGeneric, hnext, hdot, hfsNeedle_of_fold hascii (by rw [hfsFold, hw']; exact hv) htail]
  rfl

lemma stripIgnored_ascii {w : List UInt8} (h : ∀ c ∈ w, c < 0x80) : stripIgnored w = w := by
  induction w using stripIgnored.induct with
  | case1 a b c w hignored ih =>
    obtain ⟨code, hcode, hbytes⟩ := List.mem_map.mp hignored
    have hfirst : ∀ code ∈ hfsIgnored, ¬charAt (encodeIgnored code) 0 < 0x80 := by decide
    refine absurd ?_ (hfirst code hcode)
    rw [hbytes]
    exact h a List.mem_cons_self
  | case2 a b c w hkept ih =>
    rw [stripIgnored, if_neg hkept, ih fun x hx => h x (List.mem_cons_of_mem _ hx)]
  | case3 w hshort =>
    rw [stripIgnored]
    exact hshort

lemma hfsFold_of_foldCase {w name : List UInt8} (h : foldCase w = name) (hname : ∀ n ∈ name, n < 0x80) :
    hfsFold w = name := by
  rw [hfsFold, stripIgnored_ascii, h]
  intro c hc
  refine ascii_of_toLower rfl (hname _ ?_)
  rw [← h]
  exact List.mem_map_of_mem hc

lemma exists_component (s : List UInt8) :
    ∃ tail, s = component s ++ tail ∧ (tail = [] ∨ ∃ rest, tail = slash :: rest) := by
  refine ⟨s.dropWhile (· ≠ slash), (List.takeWhile_append_dropWhile).symm, ?_⟩
  cases hd : s.dropWhile (· ≠ slash) with
  | nil => exact .inl rfl
  | cons c rest =>
    have hc := List.head?_dropWhile_not (fun c => decide (c ≠ slash)) s
    rw [hd] at hc
    have hslash : c = slash := not_not.mp (of_decide_eq_false hc)
    exact .inr ⟨rest, by rw [hslash]⟩

lemma protectedNames_ascii {mode : Nat} {name : List UInt8} (h : name ∈ protectedNames mode) : ∀ n ∈ name, n < 0x80 := by
  have hgit : (dot :: gitName).all (· < 0x80) = true := by decide
  have hgitmodules : (dot :: gitmodulesName).all (· < 0x80) = true := by decide
  intro n hn
  rw [protectedNames, List.mem_cons] at h
  rcases h with rfl | h
  · exact of_decide_eq_true (List.all_eq_true.mp hgit n hn)
  · split_ifs at h
    · rw [List.mem_singleton.mp h] at hn
      exact of_decide_eq_true (List.all_eq_true.mp hgitmodules n hn)
    · cases h

theorem hfsForbids_of_fold {mode : Nat} (h : hfsFold (component s) ∈ protectedNames mode) :
    hfsForbids s mode = true := by
  obtain ⟨tail, hs, htail⟩ := exists_component s
  rw [hfsForbids, Bool.or_eq_true, Bool.and_eq_true, hs]
  have hascii := protectedNames_ascii h
  rw [protectedNames, List.mem_cons] at h
  rcases h with h | h
  · rw [h] at hascii
    exact .inl (isHfsDotGeneric_of_fold (fun n hn => hascii n (List.mem_cons_of_mem _ hn)) h htail)
  · split_ifs at h with hlnk
    · rw [List.mem_singleton.mp h] at hascii
      exact .inr ⟨hlnk, isHfsDotGeneric_of_fold (fun n hn => hascii n (List.mem_cons_of_mem _ hn))
        (List.mem_singleton.mp h) htail⟩
    · cases h

end Hfs

section Loop

variable {mode : Nat}

lemma verifyPathLoop_cons {inside : Bool} {c : UInt8} {path : List UInt8} (hc : c ≠ 0)
    (h : verifyPathLoop true true mode inside (c :: path) = .ok) :
    ∃ inside', verifyPathLoop true true mode inside' path = .ok ∧ (c = slash → inside = false ∧ inside' = true) ∧
      (c ≠ slash → inside' = false) ∧ (inside = false → c = backslash → ntfsForbids path mode = false) := by
  cases inside with
  | true =>
    rw [verifyPathLoop] at h
    split_ifs at h with h1 h2
    rw [Bool.or_eq_true, not_or] at h2
    have hslash : c ≠ slash := fun hc => h2.2 (decide_eq_true hc)
    exact ⟨false, h, fun hc => absurd hc hslash, fun _ => rfl, fun hf => absurd hf.symm Bool.false_ne_true⟩
  | false =>
    rw [verifyPathLoop] at h
    split_ifs at h with h1 h2 h3 h4
    · exact absurd h1 hc
    · exact ⟨true, h, fun _ => ⟨rfl, rfl⟩, fun hn => absurd h2 hn, fun _ hb => by rw [h2] at hb; cases hb⟩
    · exact ⟨false, h, fun hs => absurd hs h2, fun _ => rfl, fun _ _ => Bool.eq_false_of_not_eq_true h4⟩
    · refine ⟨false, h, fun hs => absurd hs h2, fun _ => rfl, fun _ hb => absurd ?_ h3⟩
      rw [hb]
      rfl

lemma verifyPathLoop_behind_slash {inside : Bool} {p s : List UInt8} (h0 : 0 ∉ p)
    (h : verifyPathLoop true true mode inside (p ++ slash :: s) = .ok) : verifyPathLoop true true mode true s = .ok := by
  induction p generalizing inside with
  | nil =>
    obtain ⟨inside', h', hslash, -⟩ := verifyPathLoop_cons (by decide) h
    rwa [(hslash rfl).2] at h'
  | cons c p ih =>
    obtain ⟨hc, hp⟩ := not_or.mp (mt List.mem_cons.mpr h0)
    obtain ⟨inside', h', -⟩ := verifyPathLoop_cons (Ne.symm hc) h
    exact ih hp h'

lemma verifyPathLoop_behind_backslash {inside : Bool} {p s : List UInt8} {c : UInt8} (h0 : 0 ∉ p) (hc0 : c ≠ 0)
    (hc : c ≠ slash) (h : verifyPathLoop true true mode inside (p ++ c :: backslash :: s) = .ok) :
    ntfsForbids s mode = false := by
  induction p generalizing inside with
  | nil =>
    obtain ⟨inside', h', -, hnext, -⟩ := verifyPathLoop_cons hc0 h
    obtain ⟨_, _, _, _, hntfs⟩ := verifyPathLoop_cons (by decide) h'
    exact hntfs (hnext hc) rfl
  | cons x p ih =>
    obtain ⟨hx, hp⟩ := not_or.mp (mt List.mem_cons.mpr h0)
    obtain ⟨inside', h', -⟩ := verifyPathLoop_cons (Ne.symm hx) h
    exact ih hp h'

lemma verifyPathLoop_start (h : verifyPathLoop true true mode true s = .ok) :
    hfsForbids s mode = false ∧ ntfsForbids s mode = false ∧ ∃ c rest, s = c :: rest ∧ c ≠ slash ∧
      (c = dot → verifyDotfile rest mode = true) := by
  cases s with
  | nil =>
    rw [verifyPathLoop] at h
    split_ifs at h
  | cons c rest =>
    rw [verifyPathLoop] at h
    split_ifs at h with h1 h2
    simp only [Bool.true_and, Bool.or_eq_true, not_or, Bool.not_eq_true, Bool.and_eq_true, decide_eq_true_iff] at h1 h2
    refine ⟨h1.1, h1.2, c, rest, rfl, h2.2, fun hc => ?_⟩
    exact Bool.eq_true_of_not_eq_false fun hf => h2.1 ⟨hc, by rw [hf]; rfl⟩

lemma verifyPathLoop_component {path s : List UInt8} (h0 : 0 ∉ path) (h : verifyPath true true path mode = true)
    (hs : ComponentAt path s) : verifyPathLoop true true mode true s = .ok := by
  have hok : verifyPathLoop true true mode true path = .ok := of_decide_eq_true h
  rcases hs with rfl | ⟨p, rfl⟩
  · exact hok
  · exact verifyPathLoop_behind_slash (fun hp => h0 (List.mem_append_left _ hp)) hok

lemma ntfsForbids_of_accepted {path s : List UInt8} (h0 : 0 ∉ path) (h : verifyPath true true path mode = true)
    (hs : ComponentAt path s ∨ BackslashAt path s) : ntfsForbids s mode = false := by
  rcases hs with hs | ⟨p, c, rfl, hc⟩
  · exact (verifyPathLoop_start (verifyPathLoop_component h0 h hs)).2.1
  · have hc0 : c ≠ 0 := by
      rintro rfl
      exact h0 (List.mem_append_right _ List.mem_cons_self)
    exact verifyPathLoop_behind_backslash (fun hp => h0 (List.mem_append_left _ hp)) hc0 hc (of_decide_eq_true h)

lemma verifyDotfile_dots {rest : List UInt8} (h : component (dot :: rest) ∈ [[dot], [dot, dot]]) :
    verifyDotfile rest mode = false := by
  obtain ⟨tail, hsplit, htail⟩ := exists_component (dot :: rest)
  have hend : isEnd (charAt tail 0) = true := by
    rcases htail with rfl | ⟨_, rfl⟩ <;> rfl
  simp only [List.mem_cons, List.not_mem_nil, or_false] at h
  rcases h with h | h
  · rw [h] at hsplit
    obtain ⟨-, rfl⟩ := List.cons_eq_cons.mp hsplit
    rw [verifyDotfile, if_pos]
    exact hend
  · rw [h] at hsplit
    obtain ⟨-, rfl⟩ := List.cons_eq_cons.mp hsplit
    have hnext : isEnd (charAt (dot :: tail) 1) = true := hend
    have hfirst : charAt (dot :: tail) 0 = dot := rfl
    change verifyDotfile (dot :: tail) mode = false
    rw [verifyDotfile, hfirst, if_neg (by decide), if_neg (by decide), if_pos rfl]
    exact congrArg not hnext

end Loop

/-- No component of an accepted path, cut at slashes, is empty, a dot or two dots, or a protected name
in lower case or as HFS+ has it; and from where one starts, or behind a backslash inside one, NTFS
finds no protected name either. -/
theorem verifyPath_spec (mode : Nat) (path s : List UInt8) (h0 : 0 ∉ path)
    (h : verifyPath true true path mode = true) :
    (ComponentAt path s → component s ∉ [[], [dot], [dot, dot]] ∧ foldCase (component s) ∉ protectedNames mode ∧
        hfsFold (component s) ∉ protectedNames mode) ∧
      (ComponentAt path s ∨ BackslashAt path s →
        ntfsFold (ntfsComponent s) ∉ [dot :: gitName, gitName ++ [tilde, 49]] ∧
          (sIsLnk mode = true → ¬IsNtfsGitmodules (ntfsFold s))) := by
  refine ⟨fun hs => ?_, fun hs => ?_⟩
  · obtain ⟨hhfs, -, c, rest, rfl, hc, hdotfile⟩ := verifyPathLoop_start (verifyPathLoop_component h0 h hs)
    have hfold : hfsFold (component (c :: rest)) ∉ protectedNames mode := by
      intro hmem
      rw [hfsForbids_of_fold hmem] at hhfs
      cases hhfs
    refine ⟨fun hmem => ?_, fun hmem => hfold ?_, hfold⟩
    · have hcons : component (c :: rest) = c :: component rest := List.takeWhile_cons_of_pos (by simpa using hc)
      have hdots : c = dot ∧ component (c :: rest) ∈ [[dot], [dot, dot]] := by
        simp only [hcons, List.mem_cons, List.not_mem_nil, or_false, List.cons_eq_cons] at hmem ⊢
        rcases hmem with hmem | hmem | hmem
        · cases hmem
        · exact ⟨hmem.1, .inl hmem⟩
        · exact ⟨hmem.1, .inr hmem⟩
      obtain ⟨rfl, hdots⟩ := hdots
      have htrue := hdotfile rfl
      rw [verifyDotfile_dots hdots] at htrue
      cases htrue
    · rw [hfsFold_of_foldCase rfl (protectedNames_ascii hmem)]
      exact hmem
  · have hforbids := ntfsForbids_of_accepted h0 h hs
    rw [ntfsForbids, Bool.or_eq_false_iff] at hforbids
    refine ⟨fun hmem => ?_, fun hlnk hmem => ?_⟩
    · rw [isNtfsDotgit_of_fold hmem] at hforbids
      cases hforbids.1
    · rw [hlnk, isNtfsDotgitmodules_of_fold hmem] at hforbids
      cases hforbids.2

abbrev samplePath : List UInt8 := [97, slash, dot, 103, 105, 116, 120]

lemma verifyPath_samplePath : verifyPath true true samplePath 0o100644 = true := by
  simp +decide [verifyPath, verifyPathInternal, verifyPathLoop, hfsForbids, isHfsDotgit, isHfsDotGeneric, hfsNeedle,
    nextHfsChar_ascii, ntfsForbids, isNtfsDotgit]

theorem verifyPath_spec_sample :
    component [dot, 103, 105, 116, 120] ∉ [[], [dot], [dot, dot]] ∧
      foldCase (component [dot, 103, 105, 116, 120]) ∉ protectedNames 0o100644 ∧
      hfsFold (component [dot, 103, 105, 116, 120]) ∉ protectedNames 0o100644 :=
  (verifyPath_spec 0o100644 samplePath [dot, 103, 105, 116, 120] (by decide) verifyPath_samplePath).1
    (.inr ⟨[97], rfl⟩)

/-- At a backslash a component may be empty or two dots, or `.git` as HFS+ has it, and a symbolic
link may go through a directory that NTFS takes for `.gitmodules`. -/
theorem verifyPath_backslash :
    (∃ path, verifyPath true true path 0o100644 = true ∧ [] ∈ path.splitOnP isXplatformDirSep ∧
        [dot, dot] ∈ path.splitOnP isXplatformDirSep) ∧
      (∃ path w, verifyPath true true path 0o100644 = true ∧ w ∈ path.splitOnP isXplatformDirSep ∧
        hfsFold w = dot :: gitName) ∧
      ∃ path w, verifyPath true true path 0o120000 = true ∧ w ∈ path.splitOnP isXplatformDirSep ∧
        ntfsFold w = dot :: gitmodulesName := by
  refine ⟨⟨[97, backslash, dot, dot, backslash, backslash, 98], ?_, by decide, by decide⟩,
    ⟨[97, backslash, dot, 103, 226, 128, 140, 105, 116], [dot, 103, 226, 128, 140, 105, 116], ?_, by decide, ?_⟩,
    ⟨dot :: gitmodulesName ++ [space, slash, 97], dot :: gitmodulesName ++ [space], ?_, by decide, by decide⟩⟩
  · simp +decide [verifyPath, verifyPathInternal, verifyPathLoop, hfsForbids, isHfsDotgit, isHfsDotGeneric, hfsNeedle,
      nextHfsChar_ascii, ntfsForbids, isNtfsDotgit]
  · simp +decide [verifyPath, verifyPathInternal, verifyPathLoop, hfsForbids, isHfsDotgit, isHfsDotGeneric, hfsNeedle,
      nextHfsChar_ascii, ntfsForbids, isNtfsDotgit]
  · simp +decide [hfsFold, stripIgnored, foldCase]
  · simp +decide [verifyPath, verifyPathInternal, verifyPathLoop, hfsForbids, isHfsDotgit, isHfsDotgitmodules,
      isHfsDotGeneric, hfsNeedle, nextHfsChar_ascii, ntfsForbids, isNtfsDotgit, isNtfsDotgitmodules, isNtfsDotGeneric,
      ntfsShortname]

end GitCore.VerifyPath
