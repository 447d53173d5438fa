import GitCore.Path.NormalizeSpec
import Mathlib.Data.List.DropRight

/-!
# A path relative to another

`relative_path` of `path.c`. Its four offsets are kept as what is left of the two paths behind them, so that an offset
at the end of its path is the empty list. A null pointer is the empty path.
-/

namespace GitCore.Path

def currentDir : List UInt8 := [period, slash]

def parentDir : List UInt8 := [period, period, slash]

def toLower (c : UInt8) : UInt8 := if 0x41 ≤ c ∧ c ≤ 0x5a then c + 0x20 else c

def isAbsolutePath (path : List UInt8) : Bool := path.head?.any isDirSep

def haveSameRoot (path1 path2 : List UInt8) : Bool :=
  (isAbsolutePath path1 && isAbsolutePath path2 && path1.head?.map toLower == path2.head?.map toLower) ||
    (!isAbsolutePath path1 && !isAbsolutePath path2)

/-- What is left of the prefix behind `i` and `prefix_off`, and of the path behind `j` and `in_off`. -/
structure Cursors where
  i : List UInt8
  j : List UInt8
  prefixOff : List UInt8
  inOff : List UInt8

def commonLoop (i j prefixOff inOff : List UInt8) : Cursors :=
  match i, j with
  | a :: i', b :: j' =>
    if a = b then
      if isDirSep a then
        -- both offsets are moved behind the slashes
        commonLoop (i'.dropWhile isDirSep) (j'.dropWhile isDirSep) (i'.dropWhile isDirSep) (j'.dropWhile isDirSep)
      else commonLoop i' j' prefixOff inOff
    else ⟨a :: i', b :: j', prefixOff, inOff⟩
  | _, _ => ⟨i, j, prefixOff, inOff⟩
termination_by i.length
decreasing_by
  · exact Nat.lt_succ_of_le (List.dropWhile_sublist _).length_le
  · exact Nat.lt_succ_self _

/-- The cases in which one path ended; what is left of the prefix behind `i` and of the path behind `in_off`. -/
def settle (st : Cursors) : List UInt8 × List UInt8 :=
  if st.i = [] ∧ st.prefixOff ≠ [] then
    if st.j = [] then (st.i, [])
    else if st.j.head?.any isDirSep then (st.i, st.j.dropWhile isDirSep)
    else (st.prefixOff, st.inOff)
  else if st.j = [] ∧ st.inOff ≠ [] then
    if st.i.head?.any isDirSep then (st.i.dropWhile isDirSep, []) else (st.i, st.inOff)
  else (st.i, st.inOff)

def upLevels : List UInt8 → List UInt8
  | [] => []
  | a :: i => if isDirSep a then parentDir ++ upLevels (i.dropWhile isDirSep) else upLevels i
termination_by i => i.length
decreasing_by
  · exact Nat.lt_succ_of_le (List.dropWhile_sublist _).length_le
  · exact Nat.lt_succ_self _

def relativePath (inPath prefixPath : List UInt8) : List UInt8 :=
  if inPath = [] then currentDir
  else if prefixPath = [] then inPath
  else if ¬haveSameRoot inPath prefixPath then inPath
  else
    let (i, inPath) := settle (commonLoop prefixPath inPath prefixPath inPath)
    if i = [] then
      if inPath = [] then currentDir else inPath
    else
      upLevels i ++ (if prefixPath.getLast?.any isDirSep then [] else parentDir) ++ inPath

end GitCore.Path

/-!
# Going from a directory to a path

A path relative to a directory goes up from the directory to where the two part, and down from there. Behind the
directory it leads to the path again.
-/

namespace GitCore.Path

variable {path rest inPath prefixPath i j prefixOff inOff c : List UInt8} {a : UInt8} {names : List (List UInt8)}

def NoDots (path : List UInt8) : Prop := ∀ c ∈ path.splitOn slash, c ≠ [period] ∧ c ≠ [period, period]

lemma noDots_append (h : NoDots (path ++ slash :: rest)) : NoDots rest := fun c hc => by
  refine h c ?_
  rw [List.splitOn_append_cons_self]
  exact List.mem_append_right _ hc

lemma noDots_dropWhile (h : NoDots path) : NoDots (path.dropWhile isDirSep) := by
  induction path with
  | nil => exact h
  | cons a path ih =>
    by_cases ha : isDirSep a
    · rw [List.dropWhile_cons_of_pos ha]
      rw [isDirSep_iff.mp ha] at h
      exact ih (@noDots_append [] _ h)
    · rwa [List.dropWhile_cons_of_neg ha]

lemma slash_dropWhile (i : List UInt8) : isDirSep a → (i.dropWhile isDirSep ≠ [] →
    (a :: i).getLast? = (i.dropWhile isDirSep).getLast?) ∧
    (i.dropWhile isDirSep = [] → (a :: i).getLast?.any isDirSep) := by
  intro ha
  induction i generalizing a with
  | nil => exact ⟨fun h => absurd rfl h, fun _ => ha⟩
  | cons b i ih =>
    rw [List.getLast?_cons_cons]
    by_cases hb : isDirSep b
    · rw [List.dropWhile_cons_of_pos hb]
      exact ih hb
    · rw [List.dropWhile_cons_of_neg hb]
      exact ⟨fun _ => rfl, fun h => absurd h (List.cons_ne_nil _ _)⟩

def upSteps (i : List UInt8) : List UInt8 := upLevels i ++ if i.getLast?.any isDirSep then [] else parentDir

lemma upSteps_eq (hc : slash ∉ c) (hdots : NoDots (c ++ i)) (hhead : (c ++ i).head? ≠ some slash) (hi : i ≠ []) :
    upSteps i = (List.replicate (components slash period (c ++ i)).length parentDir).flatten := by
  induction hn : i.length using Nat.strong_induction_on generalizing c i with
  | _ n ih =>
    obtain ⟨a, i, rfl⟩ := List.exists_cons_of_ne_nil hi
    by_cases ha : isDirSep a
    · obtain rfl := isDirSep_iff.mp ha
      have hne : c ≠ [] := by
        rintro rfl
        exact hhead rfl
      have hdot : c ≠ [period] := by
        refine (hdots c ?_).1
        rw [splitOn_first hc]
        exact List.mem_cons_self
      rw [components_first hc hne hdot, ← components_dropWhile, List.length_cons, List.replicate_succ,
        List.flatten_cons]
      obtain ⟨hlast, hend⟩ := slash_dropWhile i ha
      by_cases hrest : i.dropWhile isDirSep = []
      · have hnil : (i.dropWhile fun a => a = slash) = [] := hrest
        rw [upSteps, if_pos (hend hrest), upLevels, if_pos ha, hrest, hnil, components_nil]
        simp [upLevels]
      · have hlt : (i.dropWhile isDirSep).length < n := by
          rw [← hn]
          exact Nat.lt_succ_of_le (List.dropWhile_sublist _).length_le
        have hrec := ih _ hlt List.not_mem_nil (noDots_dropWhile (noDots_append hdots)) (head?_dropWhile_slash i)
          hrest rfl
        rw [upSteps] at hrec
        rw [upSteps, hlast hrest, upLevels, if_pos ha, List.append_assoc, hrec]
        rfl
    · have hslash : slash ∉ c ++ [a] := by
        rw [List.mem_append, List.mem_singleton, not_or]
        exact ⟨hc, fun h => ha (isDirSep_iff.mpr h.symm)⟩
      have hsplit : c ++ a :: i = c ++ [a] ++ i := by rw [List.append_assoc, List.singleton_append]
      have hup : upLevels (a :: i) = upLevels i := by rw [upLevels, if_neg ha]
      rw [hsplit] at hdots hhead ⊢
      by_cases hnil : i = []
      · subst hnil
        rw [List.append_nil] at hdots ⊢
        have hdot : c ++ [a] ≠ [period] := by
          refine (hdots _ ?_).1
          rw [List.splitOn_eq_singleton hslash]
          exact List.mem_singleton_self _
        have hend : ¬([a].getLast?.any isDirSep) := ha
        rw [components_single hslash (List.concat_ne_nil _ _) hdot, upSteps, hup, if_neg hend]
        simp [upLevels]
      · have hrec := ih i.length (by rw [← hn]; exact Nat.lt_succ_self _) hslash hdots hhead hnil rfl
        obtain ⟨b, i, rfl⟩ := List.exists_cons_of_ne_nil hnil
        rw [← hrec, upSteps, hup, List.getLast?_cons_cons, upSteps]

/-- The two paths have some components in common, and the part `c` of the next one. -/
structure Shared (inPath prefixPath : List UInt8) (st : Cursors) (front : List (List UInt8)) (c : List UInt8) :
    Prop where
  prefixOff_eq : st.prefixOff = c ++ st.i
  inOff_eq : st.inOff = c ++ st.j
  noSlash : slash ∉ c
  components_prefix : components slash period prefixPath = front ++ components slash period st.prefixOff
  components_in : components slash period inPath = front ++ components slash period st.inOff
  head_prefix : st.prefixOff.head? ≠ some slash
  noDots : NoDots st.prefixOff
  last : st.prefixOff ≠ [] → prefixPath.getLast? = st.prefixOff.getLast?
  suffix : st.inOff <:+ inPath

variable {st : Cursors} {front : List (List UInt8)}

lemma getLast?_append_ne_nil (c : List UInt8) (hi : i ≠ []) : (c ++ i).getLast? = i.getLast? :=
  List.getLast?_append_of_ne_nil c hi

lemma Shared.separator {i j : List UInt8} (h : Shared inPath prefixPath ⟨slash :: i, slash :: j, prefixOff, inOff⟩ front c) :
    Shared inPath prefixPath ⟨i.dropWhile isDirSep, j.dropWhile isDirSep, i.dropWhile isDirSep, j.dropWhile isDirSep⟩
      (front ++ [c]) [] := by
  obtain rfl : prefixOff = c ++ slash :: i := h.prefixOff_eq
  obtain rfl : inOff = c ++ slash :: j := h.inOff_eq
  have hne : c ≠ [] := by
    rintro rfl
    exact h.head_prefix rfl
  have hdot : c ≠ [period] := by
    refine (h.noDots c ?_).1
    rw [splitOn_first h.noSlash]
    exact List.mem_cons_self
  have hfirst : ∀ rest, components slash period (c ++ slash :: rest) =
      [c] ++ components slash period (rest.dropWhile isDirSep) := fun rest => by
    rw [components_first h.noSlash hne hdot, ← components_dropWhile]
    rfl
  exact
    { prefixOff_eq := rfl
      inOff_eq := rfl
      noSlash := List.not_mem_nil
      components_prefix := by rw [h.components_prefix, hfirst, List.append_assoc]
      components_in := by rw [h.components_in, hfirst, List.append_assoc]
      head_prefix := head?_dropWhile_slash i
      noDots := noDots_dropWhile (noDots_append h.noDots)
      last := fun hrest => by
        rw [h.last (by simp), getLast?_append_ne_nil c (List.cons_ne_nil _ _)]
        exact (slash_dropWhile i (by decide)).1 hrest
      suffix := by
        refine (List.dropWhile_suffix _).trans (List.IsSuffix.trans ?_ h.suffix)
        exact ⟨c ++ [slash], by rw [List.append_assoc]; rfl⟩ }

lemma Shared.byte {i j : List UInt8} (h : Shared inPath prefixPath ⟨a :: i, a :: j, prefixOff, inOff⟩ front c)
    (ha : ¬isDirSep a) : Shared inPath prefixPath ⟨i, j, prefixOff, inOff⟩ front (c ++ [a]) :=
  { h with
    prefixOff_eq := by rw [List.append_assoc]; exact h.prefixOff_eq
    inOff_eq := by rw [List.append_assoc]; exact h.inOff_eq
    noSlash := by
      rw [List.mem_append, List.mem_singleton, not_or]
      exact ⟨h.noSlash, fun heq => ha (isDirSep_iff.mpr heq.symm)⟩ }

lemma exists_shared_commonLoop (h : Shared inPath prefixPath ⟨i, j, prefixOff, inOff⟩ front c) :
    ∃ front' c', Shared inPath prefixPath (commonLoop i j prefixOff inOff) front' c' := by
  induction i, j, prefixOff, inOff using commonLoop.induct generalizing front c with
  | case1 prefixOff inOff a i j hsep ih =>
    obtain rfl := isDirSep_iff.mp hsep
    rw [commonLoop, if_pos rfl, if_pos hsep]
    exact ih h.separator
  | case2 prefixOff inOff a i j hsep ih =>
    rw [commonLoop, if_pos rfl, if_neg hsep]
    exact ih (h.byte hsep)
  | case3 prefixOff inOff a i b j hne =>
    rw [commonLoop, if_neg hne]
    exact ⟨front, c, h⟩
  | case4 i j prefixOff inOff hnot =>
    rw [commonLoop]
    · exact ⟨front, c, h⟩
    · exact hnot

structure Way (inPath prefixPath : List UInt8) (i rest : List UInt8) (ups : List (List UInt8)) : Prop where
  path_eq : ∃ front, components slash period prefixPath = front ++ ups ∧
    components slash period inPath = front ++ components slash period rest
  up_eq : i ≠ [] → upSteps i = (List.replicate ups.length parentDir).flatten ∧ prefixPath.getLast? = i.getLast?
  end_eq : i = [] → ups = []
  suffix : rest <:+ inPath

lemma Shared.way_up {i c' : List UInt8} (h : Shared inPath prefixPath st front c) (hc : slash ∉ c') (hi : i ≠ [])
    (heq : st.prefixOff = c' ++ i) :
    Way inPath prefixPath i st.inOff (components slash period st.prefixOff) where
  path_eq := ⟨front, h.components_prefix, h.components_in⟩
  up_eq := fun _ => by
    have hdots := h.noDots
    have hhead := h.head_prefix
    rw [heq] at hdots hhead ⊢
    refine ⟨upSteps_eq hc hdots hhead hi, ?_⟩
    rw [h.last (by rw [heq]; simp [hi]), heq, getLast?_append_ne_nil c' hi]
  end_eq := fun hnil => absurd hnil hi
  suffix := h.suffix

lemma Shared.segment (h : Shared inPath prefixPath st front c) (hne : c ≠ [])
    (hi : st.i = [] ∨ st.i.head?.any isDirSep) : c ≠ [period] := by
  refine (h.noDots c ?_).1
  rw [h.prefixOff_eq]
  obtain hnil | hsep := hi
  · rw [hnil, List.append_nil, List.splitOn_eq_singleton h.noSlash]
    exact List.mem_singleton_self c
  · cases hrest : st.i with
    | nil =>
      rw [hrest] at hsep
      cases hsep
    | cons a i =>
      rw [hrest] at hsep
      rw [isDirSep_iff.mp hsep, splitOn_first h.noSlash]
      exact List.mem_cons_self

lemma Shared.way_prefixEnds (h : Shared inPath prefixPath st front c) (hi : st.i = []) (hoff : st.prefixOff ≠ []) :
    ∃ ups, Way inPath prefixPath (settle st).1 (settle st).2 ups := by
  have hbase := h.prefixOff_eq
  have hin := h.inOff_eq
  rw [hi, List.append_nil] at hbase
  have hne : c ≠ [] := hbase ▸ hoff
  have hdot := h.segment hne (.inl hi)
  have hlast := h.components_prefix
  rw [hbase, components_single h.noSlash hne hdot] at hlast
  have hnone : components slash period prefixPath = (front ++ [c]) ++ [] := by rw [hlast, List.append_nil]
  by_cases hj : st.j = []
  · rw [settle, if_pos ⟨hi, hoff⟩, if_pos hj]
    refine ⟨[], ⟨front ++ [c], hnone, ?_⟩, fun h => absurd hi h, fun _ => rfl, List.nil_suffix⟩
    rw [h.components_in, hin, hj, List.append_nil, components_single h.noSlash hne hdot, components_nil,
      List.append_nil]
  · by_cases hsep : st.j.head?.any isDirSep
    · obtain ⟨b, j, hcons⟩ := List.exists_cons_of_ne_nil hj
      have hb : b = slash := isDirSep_iff.mp (by rw [hcons] at hsep; exact hsep)
      have hdrop : components slash period (st.j.dropWhile isDirSep) = components slash period st.j :=
        components_dropWhile st.j
      rw [settle, if_pos ⟨hi, hoff⟩, if_neg hj, if_pos hsep]
      refine ⟨[], ⟨front ++ [c], hnone, ?_⟩, fun h => absurd hi h, fun _ => rfl, ?_⟩
      · rw [h.components_in, hin, hdrop, hcons, hb, components_first h.noSlash hne hdot, components_sep,
          List.append_assoc]
        rfl
      · exact (List.dropWhile_suffix _).trans (List.IsSuffix.trans ⟨c, hin.symm⟩ h.suffix)
    · rw [settle, if_pos ⟨hi, hoff⟩, if_neg hj, if_neg hsep]
      exact ⟨_, h.way_up List.not_mem_nil hoff (List.nil_append _).symm⟩

lemma Shared.way_pathEnds (h : Shared inPath prefixPath st front c) (hj : st.j = []) (hoff : st.inOff ≠ [])
    (hsep : st.i.head?.any isDirSep) :
    ∃ ups, Way inPath prefixPath (st.i.dropWhile isDirSep) [] ups := by
  have hbase := h.prefixOff_eq
  have hin := h.inOff_eq
  rw [hj, List.append_nil] at hin
  have hne : c ≠ [] := hin ▸ hoff
  have hdot := h.segment hne (.inr hsep)
  obtain ⟨i, hcons⟩ : ∃ i, st.i = slash :: i := by
    cases hi : st.i with
    | nil =>
      rw [hi] at hsep
      cases hsep
    | cons a i =>
      rw [hi] at hsep
      exact ⟨i, by rw [isDirSep_iff.mp hsep]⟩
  have hdrop : (slash :: i).dropWhile isDirSep = i.dropWhile isDirSep := rfl
  have hcomponents : components slash period (i.dropWhile isDirSep) = components slash period i :=
    components_dropWhile i
  have hdots := h.noDots
  rw [hbase, hcons] at hdots
  rw [hcons, hdrop]
  refine ⟨components slash period (i.dropWhile isDirSep), ⟨front ++ [c], ?_, ?_⟩, fun hrest => ⟨?_, ?_⟩,
    fun hnil => ?_, List.nil_suffix⟩
  · rw [h.components_prefix, hbase, hcons, components_first h.noSlash hne hdot, hcomponents, List.append_assoc]
    rfl
  · rw [h.components_in, hin, components_single h.noSlash hne hdot, components_nil, List.append_nil]
  · exact upSteps_eq List.not_mem_nil (noDots_dropWhile (noDots_append hdots)) (head?_dropWhile_slash i) hrest
  · rw [h.last (by rw [hbase, hcons]; simp), hbase, hcons, getLast?_append_ne_nil c (List.cons_ne_nil _ _)]
    exact (slash_dropWhile i (by decide)).1 hrest
  · rw [hnil, components_nil]

lemma Shared.way (h : Shared inPath prefixPath st front c) :
    ∃ ups, Way inPath prefixPath (settle st).1 (settle st).2 ups := by
  have hbase := h.prefixOff_eq
  by_cases hi : st.i = []
  · by_cases hoff : st.prefixOff = []
    · -- the prefix ends in a slash
      rw [hoff, hi, List.append_nil] at hbase
      have hin := h.inOff_eq
      have hj : ¬(st.j = [] ∧ st.inOff ≠ []) := fun hj => hj.2 (by rw [hin, ← hbase, hj.1]; rfl)
      rw [settle, if_neg fun hoff' => hoff'.2 hoff, if_neg hj]
      refine ⟨[], ⟨front, ?_, h.components_in⟩, fun hne => absurd hi hne, fun _ => rfl, h.suffix⟩
      rw [h.components_prefix, hoff, components_nil]
    · exact h.way_prefixEnds hi hoff
  · rw [settle, if_neg fun hi' => hi hi'.1]
    by_cases hj : st.j = [] ∧ st.inOff ≠ []
    · rw [if_pos hj]
      by_cases hsep : st.i.head?.any isDirSep
      · rw [if_pos hsep]
        exact h.way_pathEnds hj.1 hj.2 hsep
      · rw [if_neg hsep]
        exact ⟨_, h.way_up h.noSlash hi hbase⟩
    · rw [if_neg hj]
      exact ⟨_, h.way_up h.noSlash hi hbase⟩

lemma components_parents (n : Nat) (rest : List UInt8) :
    components slash period ((List.replicate n parentDir).flatten ++ rest) =
      List.replicate n [period, period] ++ components slash period rest := by
  induction n with
  | zero => rfl
  | succ n ih =>
    have hfirst := @components_first _ _ slash period [period, period] (by decide) (by decide)
      (by decide) ((List.replicate n parentDir).flatten ++ rest)
    rw [List.replicate_succ, List.flatten_cons, List.append_assoc, List.replicate_succ, List.cons_append, ← ih]
    exact hfirst

lemma shared_slash (hdots : NoDots (slash :: i)) :
    Shared (slash :: j) (slash :: i)
      ⟨i.dropWhile isDirSep, j.dropWhile isDirSep, i.dropWhile isDirSep, j.dropWhile isDirSep⟩ [] [] where
  prefixOff_eq := rfl
  inOff_eq := rfl
  noSlash := List.not_mem_nil
  components_prefix := by
    rw [components_sep, ← components_dropWhile]
    rfl
  components_in := by
    rw [components_sep, ← components_dropWhile]
    rfl
  head_prefix := head?_dropWhile_slash i
  noDots := noDots_dropWhile (@noDots_append [] _ hdots)
  last := (slash_dropWhile i (by decide)).1
  suffix := (List.dropWhile_suffix _).trans (List.suffix_cons slash j)

lemma relativePath_components (hdots : NoDots (slash :: i)) :
    ∃ front ups, components slash period (slash :: i) = front ++ ups ∧
      ∃ downs, components slash period (slash :: j) = front ++ downs ∧
        components slash period (relativePath (slash :: j) (slash :: i)) =
          List.replicate ups.length [period, period] ++ downs ∧
        ∀ a ∈ relativePath (slash :: j) (slash :: i), a = slash ∨ a = period ∨ a ∈ slash :: j := by
  obtain ⟨front₀, c, hshared⟩ := exists_shared_commonLoop (shared_slash (j := j) hdots)
  obtain ⟨ups, hway⟩ := hshared.way
  obtain ⟨front, hbase, hin⟩ := hway.path_eq
  have hloop : commonLoop (slash :: i) (slash :: j) (slash :: i) (slash :: j) =
      commonLoop (i.dropWhile isDirSep) (j.dropWhile isDirSep) (i.dropWhile isDirSep) (j.dropWhile isDirSep) := by
    rw [commonLoop, if_pos rfl, if_pos (by decide)]
  have hsame : haveSameRoot (slash :: j) (slash :: i) = true := rfl
  refine ⟨front, ups, hbase, _, hin, ?_⟩
  rw [relativePath, if_neg (List.cons_ne_nil _ _), if_neg (List.cons_ne_nil _ _), if_neg (by rw [hsame]; decide), hloop]
  dsimp only
  by_cases hi : (settle (commonLoop (i.dropWhile isDirSep) (j.dropWhile isDirSep) (i.dropWhile isDirSep)
      (j.dropWhile isDirSep))).1 = []
  · rw [if_pos hi, hway.end_eq hi]
    split_ifs with hrest
    · rw [hrest, components_nil]
      refine ⟨by decide, fun a ha => ?_⟩
      simp only [currentDir, List.mem_cons, List.not_mem_nil, or_false] at ha
      exact ha.elim (fun h => .inr (.inl h)) .inl
    · exact ⟨rfl, fun a ha => .inr (.inr (hway.suffix.subset ha))⟩
  · obtain ⟨hup, hlast⟩ := hway.up_eq hi
    rw [if_neg hi, hlast, ← upSteps, hup, components_parents]
    refine ⟨rfl, fun a ha => ?_⟩
    obtain ha | ha := List.mem_append.mp ha
    · obtain ⟨l, hl, ha⟩ := List.mem_flatten.mp ha
      rw [List.eq_of_mem_replicate hl] at ha
      simp only [parentDir, List.mem_cons, List.not_mem_nil, or_false, or_self_left] at ha
      exact ha.elim (fun h => .inr (.inl h)) .inl
    · exact .inr (.inr (hway.suffix.subset ha))

structure Normalised (path : List UInt8) : Prop where
  noNul : 0 ∉ path
  absolute : path.head? = some slash
  same : NormalizesTo path path

lemma bytesAt_unique {mem xs ys : List UInt8} {k : Nat} (hxs : BytesAt mem k (xs ++ [0]))
    (hys : BytesAt mem k (ys ++ [0])) (hx : 0 ∉ xs) (hy : 0 ∉ ys) : xs = ys := by
  induction xs generalizing ys k with
  | nil =>
    cases ys with
    | nil => rfl
    | cons y ys =>
      have heq := hxs.head.symm.trans hys.head
      exact absurd (Option.some.inj heq ▸ List.mem_cons_self) hy
  | cons x xs ih =>
    cases ys with
    | nil =>
      have heq := hys.head.symm.trans hxs.head
      exact absurd (Option.some.inj heq ▸ List.mem_cons_self) hx
    | cons y ys =>
      have heq := hxs.head.symm.trans hys.head
      rw [List.mem_cons, not_or] at hx hy
      rw [Option.some.inj heq, ih hxs.tail hys.tail hx.2 hy.2]

lemma placed_alone (path : List UInt8) : Placed (path ++ [0]) 0 0 path where
  src_at := fun k x hk => by rwa [Nat.zero_add]
  apart := .inl rfl
  room := by simp

lemma Normalised.exists_names (h : Normalised path) :
    ∃ names, resolved path = some names ∧ path = written path names := by
  obtain ⟨mem', prefixLen, hrun, hat⟩ := h.same _ 0 0 (placed_alone path)
  cases hresolved : resolved path with
  | none =>
    obtain ⟨mem'', prefixLen', hfail⟩ := normalizeFails_of_resolved h.noNul hresolved _ 0 0 (placed_alone path)
    rw [hrun] at hfail
    cases hfail
  | some names =>
    have hform : normalForm path = some (written path names) := by
      rw [normalForm, hresolved]
      rfl
    obtain ⟨mem'', prefixLen', hrun', hat'⟩ := (normalizesTo_of_normalForm h.noNul hform).1 _ 0 0 (placed_alone path)
    rw [hrun] at hrun'
    obtain ⟨rfl, -⟩ := NormalizeResult.done.inj (Option.some.inj hrun')
    exact ⟨names, rfl, bytesAt_unique hat hat' h.noNul
      (notMem_zero_written (notMem_zero_of_resolved h.noNul hresolved))⟩

lemma noDots_written (h : ∀ c ∈ names, IsName slash period c) (path : List UInt8) : NoDots (written path names) := by
  have hroot : ∀ rest, NoDots rest → NoDots (root path ++ rest) := fun rest hrest => by
    rw [root]
    split_ifs
    · intro c hc
      have hsplit := @splitOn_first _ _ slash _ List.not_mem_nil rest
      rw [List.nil_append] at hsplit
      rw [List.singleton_append, hsplit] at hc
      obtain rfl | hc := List.mem_cons.mp hc
      · decide
      · exact hrest c hc
    · exact hrest
  have hname : ∀ c ∈ names, c ≠ [period] ∧ c ≠ [period, period] := fun c hc => ⟨(h c hc).ne_dot, (h c hc).ne_dots⟩
  refine hroot _ ?_
  obtain rfl | ⟨names', c, rfl⟩ := List.eq_nil_or_concat' names
  · split_ifs <;> exact fun c hc => by simp_all [joined, closed]
  · have hc := h c (by simp)
    split_ifs
    · intro d hd
      rw [joined_append_singleton, splitOn_closed fun e he => (h e (List.mem_append_left _ he)).sep_notMem,
        List.splitOn_eq_singleton hc.sep_notMem] at hd
      exact hname d hd
    · intro d hd
      have hsplit := splitOn_closed (fun e he => (h e he).sep_notMem) ([] : List UInt8)
      rw [List.append_nil, List.splitOn_eq_singleton List.not_mem_nil] at hsplit
      rw [hsplit] at hd
      obtain hd | hd := List.mem_append.mp hd
      · exact hname d hd
      · rw [List.mem_singleton.mp hd]
        decide

lemma rdropWhile_written (h : root path = root inPath) :
    (written path names).rdropWhile isDirSep = (written inPath names).rdropWhile isDirSep := by
  have hclosed : ∀ r, (r ++ closed slash names).rdropWhile isDirSep = (r ++ joined slash names).rdropWhile isDirSep :=
    fun r => by
      by_cases hnil : names = []
      · rw [hnil]
        rfl
      · rw [closed_eq_joined hnil, ← List.append_assoc, List.rdropWhile_concat_pos _ _ _ (by decide)]
  rw [written, written, h]
  split_ifs
  · rfl
  · exact (hclosed _).symm
  · exact hclosed _
  · rfl

lemma resolved_relativePath (hin : resolved (slash :: j) = some names) (hdots : NoDots (slash :: i))
    (hsame : ∀ c ∈ components slash period (slash :: j), c ≠ [period, period]) :
    resolved (slash :: i ++ slash :: relativePath (slash :: j) (slash :: i)) = some names := by
  obtain ⟨front, ups, hbase, downs, hpath, hrel, -⟩ := relativePath_components (j := j) hdots
  have hnames : ∀ c ∈ front ++ ups, c ≠ [period, period] := fun c hc => by
    rw [← hbase] at hc
    exact (hdots c (List.mem_filter.mp hc).1).2
  rw [hpath] at hsame
  rw [resolved, hpath, resolveFrom_names _ hsame] at hin
  rw [resolved, components_append, hbase, hrel, resolveFrom_append, resolveFrom_names _ hnames, Option.bind_some,
    resolveFrom_append, List.nil_append, resolveFrom_dots, Option.bind_some,
    resolveFrom_names _ fun c hc => hsame c (List.mem_append_right _ hc)]
  exact hin

/-- Normalizing fails when the path leaves the directory it starts in, and otherwise gives the resolved path, which is
not longer and stays as it is. The path relative to a directory leads from it to the path. -/
theorem normalizePathCopy_relativePath (hnul : 0 ∉ path) (hin : Normalised inPath) (hbase : Normalised prefixPath) :
    ((resolved path = none → NormalizeFails path) ∧
      ∀ names, resolved path = some names →
        (∀ c ∈ names, IsName slash period c) ∧ NormalizesTo path (written path names) ∧
          ¬[slash, slash] <:+: written path names ∧ (written path names).length ≤ path.length ∧
          NormalizesTo (written path names) (written path names)) ∧
    ∃ out, NormalizesTo (prefixPath ++ slash :: relativePath inPath prefixPath) out ∧
      out.rdropWhile isDirSep = inPath.rdropWhile isDirSep := by
  refine ⟨⟨normalizeFails_of_resolved hnul, fun names hnames => ?_⟩, ?_⟩
  · have hname := isName_of_resolved hnames
    have hform : normalForm path = some (written path names) := by
      rw [normalForm, hnames]
      rfl
    obtain ⟨hto, hle⟩ := normalizesTo_of_normalForm hnul hform
    have hnul' := @notMem_zero_written path _ (notMem_zero_of_resolved hnul hnames)
    have hagain := (normalizesTo_of_normalForm hnul' (normalForm_written hname path)).1
    refine ⟨hname, hto, fun hdouble => not_infix_closed hname (hdouble.trans ?_), hle, hagain⟩
    refine (written_isPrefix path names).isInfix.trans ?_
    rw [root]
    split_ifs
    · exact List.infix_rfl
    · exact (List.suffix_cons _ _).isInfix
  · obtain ⟨inNames, hresolved, hwritten⟩ := hin.exists_names
    obtain ⟨prefixNames, hresolved', hwritten'⟩ := hbase.exists_names
    obtain ⟨j, rfl⟩ : ∃ j, inPath = slash :: j := by
      have habs := hin.absolute
      cases inPath with
      | nil => cases habs
      | cons a j => exact ⟨j, by rw [Option.some.inj habs]⟩
    obtain ⟨i, rfl⟩ : ∃ i, prefixPath = slash :: i := by
      have habs := hbase.absolute
      cases prefixPath with
      | nil => cases habs
      | cons a i => exact ⟨i, by rw [Option.some.inj habs]⟩
    have hdots : NoDots (slash :: i) := by
      rw [hwritten']
      exact noDots_written (isName_of_resolved hresolved') _
    have hdots' : NoDots (slash :: j) := by
      rw [hwritten]
      exact noDots_written (isName_of_resolved hresolved) _
    have hboth := resolved_relativePath hresolved hdots fun c hc => (hdots' c (List.mem_filter.mp hc).1).2
    obtain ⟨-, -, -, -, -, -, hmem⟩ := relativePath_components (j := j) hdots
    have hzero : 0 ∉ slash :: i ++ slash :: relativePath (slash :: j) (slash :: i) := fun hzero => by
      obtain hzero | hzero := List.mem_append.mp hzero
      · exact hbase.noNul hzero
      · obtain hzero | hzero := List.mem_cons.mp hzero
        · exact absurd hzero (by decide)
        · obtain hzero | hzero | hzero := hmem 0 hzero
          · exact absurd hzero (by decide)
          · exact absurd hzero (by decide)
          · exact hin.noNul hzero
    have hform : normalForm (slash :: i ++ slash :: relativePath (slash :: j) (slash :: i)) =
        some (written (slash :: i ++ slash :: relativePath (slash :: j) (slash :: i)) inNames) := by
      rw [normalForm, hboth]
      rfl
    refine ⟨_, (normalizesTo_of_normalForm hzero hform).1, ?_⟩
    have hroot : root (slash :: i ++ slash :: relativePath (slash :: j) (slash :: i)) = root (slash :: j) := rfl
    exact (rdropWhile_written hroot).trans (congrArg _ hwritten.symm)

lemma normalised_of_normalForm (hnul : 0 ∉ path) (habs : path.head? = some slash)
    (hform : normalForm path = some path) : Normalised path where
  noNul := hnul
  absolute := habs
  same := (normalizesTo_of_normalForm hnul hform).1

theorem normalizePathCopy_relativePath_sibling :
    NormalizesTo [0x61, slash, period, period, slash, 0x62] [0x62] ∧
      relativePath [slash, 0x64, slash, 0x62] [slash, 0x64, slash, 0x63, slash] = [period, period, slash, 0x62] ∧
      ∃ out, NormalizesTo [slash, 0x64, slash, 0x63, slash, slash, period, period, slash, 0x62] out ∧
        out.rdropWhile isDirSep = [slash, 0x64, slash, 0x62] := by
  have hnul : 0 ∉ [0x61, slash, period, period, slash, 0x62] := by decide
  have hin : Normalised [slash, 0x64, slash, 0x62] := normalised_of_normalForm (by decide) rfl (by decide)
  have hbase : Normalised [slash, 0x64, slash, 0x63, slash] := normalised_of_normalForm (by decide) rfl (by decide)
  have hrel : relativePath [slash, 0x64, slash, 0x62] [slash, 0x64, slash, 0x63, slash] =
      [period, period, slash, 0x62] := by
    simp [relativePath, haveSameRoot, isAbsolutePath, commonLoop, settle, upLevels, isDirSep, slash, period, parentDir]
  obtain ⟨⟨-, hto⟩, out, hout, hsame⟩ := normalizePathCopy_relativePath hnul hin hbase
  refine ⟨(hto [[0x62]] (by decide)).2.1, hrel, out, ?_, hsame⟩
  rw [hrel] at hout
  exact hout

end GitCore.Path
