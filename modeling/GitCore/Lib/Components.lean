import Mathlib.Tactic

/-!
# Components of textual paths

A path is split at its separators. Empty segments and single dots say nothing, and two dots take the name before them
away. A resolved path is written with separators between its names, and with one behind the last name or without.
-/

namespace GitCore

variable {α : Type*} [DecidableEq α] (sep dot : α)

def components (path : List α) : List (List α) := (path.splitOn sep).filter fun c => c ≠ [] ∧ c ≠ [dot]

/-- The names that are left of some names by these components; nothing if two dots have no name before them. -/
def resolveFrom (names : List (List α)) : List (List α) → Option (List (List α))
  | [] => some names
  | c :: cs =>
    if c = [dot, dot] then
      if names = [] then none else resolveFrom names.dropLast cs
    else resolveFrom (names ++ [c]) cs

def closed (names : List (List α)) : List α := names.flatMap (· ++ [sep])

def joined : List (List α) → List α
  | [] => []
  | [c] => c
  | c :: d :: cs => c ++ sep :: joined (d :: cs)

def EndsInName (path : List α) : Prop :=
  ∀ c ∈ (path.splitOn sep).getLast?, c ≠ [] ∧ c ≠ [dot] ∧ c ≠ [dot, dot]

instance (path : List α) : Decidable (EndsInName sep dot path) :=
  inferInstanceAs (Decidable (∀ c ∈ (path.splitOn sep).getLast?, c ≠ [] ∧ c ≠ [dot] ∧ c ≠ [dot, dot]))

structure IsName (c : List α) : Prop where
  ne_nil : c ≠ []
  sep_notMem : sep ∉ c
  ne_dot : c ≠ [dot]
  ne_dots : c ≠ [dot, dot]

variable {sep dot} {names names' : List (List α)} {c : List α} {path rest : List α}

lemma splitOn_first (h : sep ∉ c) (rest : List α) : (c ++ sep :: rest).splitOn sep = c :: rest.splitOn sep := by
  rw [List.splitOn_append_cons_self, List.splitOn_eq_singleton h, List.singleton_append]

lemma exists_first_segment (sep : α) (path : List α) :
    sep ∉ path ∨ ∃ c rest, sep ∉ c ∧ path = c ++ sep :: rest := by
  induction path with
  | nil => exact .inl List.not_mem_nil
  | cons a path ih =>
    by_cases ha : a = sep
    · exact .inr ⟨[], path, List.not_mem_nil, by rw [ha]; rfl⟩
    · obtain hnot | ⟨c, rest, hc, rfl⟩ := ih
      · exact .inl fun hmem => (List.mem_cons.mp hmem).elim (fun h => ha h.symm) hnot
      · exact .inr ⟨a :: c, rest, fun hmem => (List.mem_cons.mp hmem).elim (fun h => ha h.symm) hc, rfl⟩

lemma components_single (h : sep ∉ c) (hne : c ≠ []) (hdot : c ≠ [dot]) : components sep dot c = [c] := by
  rw [components, List.splitOn_eq_singleton h, List.filter_cons_of_pos (by simp [hne, hdot]), List.filter_nil]

lemma components_first (h : sep ∉ c) (hne : c ≠ []) (hdot : c ≠ [dot]) (rest : List α) :
    components sep dot (c ++ sep :: rest) = c :: components sep dot rest := by
  rw [components, splitOn_first h, List.filter_cons_of_pos (by simp [hne, hdot])]
  rfl

lemma components_nil : components sep dot [] = [] := by
  rw [components, List.splitOn_eq_singleton List.not_mem_nil]
  simp

lemma components_sep (rest : List α) : components sep dot (sep :: rest) = components sep dot rest := by
  have h := @splitOn_first _ _ sep _ List.not_mem_nil rest
  rw [List.nil_append] at h
  rw [components, h, List.filter_cons_of_neg (by simp)]
  rfl

lemma components_dot (hne : dot ≠ sep) (rest : List α) :
    components sep dot (dot :: sep :: rest) = components sep dot rest := by
  have h := @splitOn_first _ _ sep [dot] (fun h => hne (List.mem_singleton.mp h).symm) rest
  rw [List.singleton_append] at h
  rw [components, h, List.filter_cons_of_neg (by simp)]
  rfl

lemma components_dot_end (hne : dot ≠ sep) : components sep dot [dot] = [] := by
  rw [components, List.splitOn_eq_singleton fun h => hne (List.mem_singleton.mp h).symm]
  simp

lemma components_dropWhile (path : List α) :
    components sep dot (path.dropWhile fun a => a = sep) = components sep dot path := by
  induction path with
  | nil => rfl
  | cons a path ih =>
    by_cases ha : a = sep
    · rw [List.dropWhile_cons_of_pos (by simpa using ha), ih, ha, components_sep]
    · rw [List.dropWhile_cons_of_neg (by simpa using ha)]

lemma components_append (path rest : List α) :
    components sep dot (path ++ sep :: rest) = components sep dot path ++ components sep dot rest := by
  rw [components, List.splitOn_append_cons_self, List.filter_append, components, components]

lemma splitOn_closed (h : ∀ c ∈ names, sep ∉ c) (rest : List α) :
    (closed sep names ++ rest).splitOn sep = names ++ rest.splitOn sep := by
  induction names with
  | nil => rfl
  | cons c names ih =>
    obtain ⟨hc, hnames⟩ := List.forall_mem_cons.mp h
    rw [closed, List.flatMap_cons, List.append_assoc, List.append_assoc, List.singleton_append, splitOn_first hc,
      List.cons_append]
    exact congrArg _ (ih hnames)

lemma components_closed (h : ∀ c ∈ names, IsName sep dot c) (rest : List α) :
    components sep dot (closed sep names ++ rest) = names ++ components sep dot rest := by
  rw [components, splitOn_closed fun c hc => (h c hc).sep_notMem, List.filter_append, components]
  congr 1
  exact List.filter_eq_self.mpr fun c hc => by simpa using ⟨(h c hc).ne_nil, (h c hc).ne_dot⟩

omit [DecidableEq α] in
lemma closed_append (names names' : List (List α)) : closed sep (names ++ names') = closed sep names ++ closed sep names' :=
  List.flatMap_append

omit [DecidableEq α] in
lemma closed_singleton (c : List α) : closed sep [c] = c ++ [sep] := by simp [closed]

omit [DecidableEq α] in
lemma joined_append_singleton (names : List (List α)) (c : List α) :
    joined sep (names ++ [c]) = closed sep names ++ c := by
  induction names with
  | nil => rfl
  | cons d names ih =>
    cases names with
    | nil => simp [joined, closed]
    | cons e names =>
      rw [List.cons_append, List.cons_append, joined, ← List.cons_append, ih]
      simp [closed]

lemma components_joined (h : ∀ c ∈ names, IsName sep dot c) : components sep dot (joined sep names) = names := by
  obtain rfl | ⟨names', c, rfl⟩ := List.eq_nil_or_concat' names
  · exact components_nil
  · have hc := h c (List.mem_append_right _ (List.mem_singleton_self c))
    rw [joined_append_singleton, components_closed fun d hd => h d (List.mem_append_left _ hd),
      components_single hc.sep_notMem hc.ne_nil hc.ne_dot]

lemma resolveFrom_append (names cs ds : List (List α)) :
    resolveFrom dot names (cs ++ ds) = (resolveFrom dot names cs).bind fun names' => resolveFrom dot names' ds := by
  induction cs generalizing names with
  | nil => rfl
  | cons c cs ih =>
    rw [List.cons_append, resolveFrom, resolveFrom]
    split_ifs
    · rfl
    · exact ih _
    · exact ih _

lemma resolveFrom_names (names : List (List α)) {cs : List (List α)} (h : ∀ c ∈ cs, c ≠ [dot, dot]) :
    resolveFrom dot names cs = some (names ++ cs) := by
  induction cs generalizing names with
  | nil => rw [resolveFrom, List.append_nil]
  | cons c cs ih =>
    obtain ⟨hc, hcs⟩ := List.forall_mem_cons.mp h
    rw [resolveFrom, if_neg hc, ih _ hcs, List.append_assoc, List.singleton_append]

lemma resolveFrom_dots (names names' : List (List α)) :
    resolveFrom dot (names ++ names') (List.replicate names'.length [dot, dot]) = some names := by
  induction names' using List.reverseRecOn with
  | nil => rw [List.append_nil]; rfl
  | append_singleton names' c ih =>
    rw [List.length_append, List.length_singleton, List.replicate_succ, resolveFrom, if_pos rfl, if_neg (by simp),
      ← List.append_assoc, List.dropLast_concat, ih]

lemma isName_of_resolveFrom {cs : List (List α)} (hnames : ∀ c ∈ names, IsName sep dot c)
    (hcs : ∀ c ∈ cs, c ≠ [] ∧ sep ∉ c ∧ c ≠ [dot]) (h : resolveFrom dot names cs = some names') :
    ∀ c ∈ names', IsName sep dot c := by
  induction cs generalizing names with
  | nil =>
    rw [← Option.some.inj h]
    exact hnames
  | cons c cs ih =>
    obtain ⟨hc, hrest⟩ := List.forall_mem_cons.mp hcs
    rw [resolveFrom] at h
    split_ifs at h with hdots hnil
    · exact ih (fun d hd => hnames d (List.mem_of_mem_dropLast hd)) hrest h
    · refine ih (fun d hd => ?_) hrest h
      obtain hd | hd := List.mem_append.mp hd
      · exact hnames d hd
      · rw [List.mem_singleton.mp hd]
        exact ⟨hc.1, hc.2.1, hc.2.2, hdots⟩

lemma components_spec : ∀ c ∈ components sep dot path, c ≠ [] ∧ sep ∉ c ∧ c ≠ [dot] := by
  induction hn : path.length using Nat.strong_induction_on generalizing path with
  | _ n ih =>
    intro c hc
    have hfilter := List.mem_filter.mp hc
    have hproper : c ≠ [] ∧ c ≠ [dot] := by simpa using hfilter.2
    refine ⟨hproper.1, ?_, hproper.2⟩
    obtain hsingle | ⟨d, rest, hd, rfl⟩ := exists_first_segment sep path
    · rw [List.splitOn_eq_singleton hsingle] at hfilter
      rw [List.mem_singleton.mp hfilter.1]
      exact hsingle
    · rw [splitOn_first hd] at hfilter
      obtain rfl | hmem := List.mem_cons.mp hfilter.1
      · exact hd
      · exact (ih rest.length (by rw [← hn]; simp; omega) rfl c (List.mem_filter.mpr ⟨hmem, hfilter.2⟩)).2.1

lemma mem_of_mem_splitOn {a : α} (hc : c ∈ path.splitOn sep) (ha : a ∈ c) : a ∈ path := by
  induction hn : path.length using Nat.strong_induction_on generalizing path with
  | _ n ih =>
    obtain hsingle | ⟨d, rest, hd, rfl⟩ := exists_first_segment sep path
    · rw [List.splitOn_eq_singleton hsingle] at hc
      rwa [← List.mem_singleton.mp hc]
    · rw [splitOn_first hd] at hc
      obtain rfl | hmem := List.mem_cons.mp hc
      · exact List.mem_append_left _ ha
      · have hrest := ih rest.length (by rw [← hn]; simp; omega) hmem rfl
        exact List.mem_append_right _ (List.mem_cons_of_mem _ hrest)

lemma mem_of_resolveFrom {cs : List (List α)} (h : resolveFrom dot names cs = some names') (hc : c ∈ names') :
    c ∈ names ∨ c ∈ cs := by
  induction cs generalizing names with
  | nil =>
    rw [← Option.some.inj h] at hc
    exact .inl hc
  | cons d cs ih =>
    rw [resolveFrom] at h
    split_ifs at h
    · exact (ih h).imp List.mem_of_mem_dropLast (List.mem_cons_of_mem _)
    · obtain hmem | hmem := ih h
      · obtain hmem | hmem := List.mem_append.mp hmem
        · exact .inl hmem
        · rw [List.mem_singleton.mp hmem]
          exact .inr List.mem_cons_self
      · exact .inr (List.mem_cons_of_mem _ hmem)

omit [DecidableEq α] in
lemma joined_isPrefix (names : List (List α)) : joined sep names <+: closed sep names := by
  obtain rfl | ⟨names', c, rfl⟩ := List.eq_nil_or_concat' names
  · exact List.prefix_rfl
  · rw [joined_append_singleton, closed_append, closed_singleton, ← List.append_assoc]
    exact List.prefix_append _ _

omit [DecidableEq α] in
lemma closed_eq_joined (h : names ≠ []) : closed sep names = joined sep names ++ [sep] := by
  obtain rfl | ⟨names', c, rfl⟩ := List.eq_nil_or_concat' names
  · exact absurd rfl h
  · rw [joined_append_singleton, closed_append, closed_singleton, List.append_assoc]

omit [DecidableEq α] in
lemma infix_of_append {a b : α} (h : [a, b] <:+: c ++ rest) (ha : a ∉ c) : [a, b] <:+: rest := by
  induction c with
  | nil => exact h
  | cons d c ih =>
    rw [List.mem_cons, not_or] at ha
    obtain hpre | hin := List.infix_cons_iff.mp h
    · exact absurd (List.cons_prefix_cons.mp hpre).1 ha.1
    · exact ih hin ha.2

lemma not_infix_closed (h : ∀ c ∈ names, IsName sep dot c) : ¬[sep, sep] <:+: sep :: closed sep names := by
  induction names with
  | nil => simp [closed, List.infix_cons_iff]
  | cons c names ih =>
    obtain ⟨hc, hnames⟩ := List.forall_mem_cons.mp h
    intro hin
    have hcons : closed sep (c :: names) = c ++ sep :: closed sep names := by simp [closed]
    rw [hcons] at hin
    obtain hpre | hin := List.infix_cons_iff.mp hin
    · obtain ⟨a, c, rfl⟩ := List.exists_cons_of_ne_nil hc.ne_nil
      have ha : sep = a := (List.cons_prefix_cons.mp (List.cons_prefix_cons.mp hpre).2).1
      exact hc.sep_notMem (ha ▸ List.mem_cons_self)
    · exact ih hnames (infix_of_append hin hc.sep_notMem)

lemma endsInName_single (h : sep ∉ c) : EndsInName sep dot c ↔ c ≠ [] ∧ c ≠ [dot] ∧ c ≠ [dot, dot] := by
  rw [EndsInName, List.splitOn_eq_singleton h]
  simp

lemma endsInName_append (path rest : List α) :
    EndsInName sep dot (path ++ sep :: rest) ↔ EndsInName sep dot rest := by
  rw [EndsInName, List.splitOn_append_cons_self, List.getLast?_append_of_ne_nil _ (List.splitOn_ne_nil sep rest),
    EndsInName]

lemma endsInName_sep (rest : List α) : EndsInName sep dot (sep :: rest) ↔ EndsInName sep dot rest :=
  endsInName_append [] rest

lemma endsInName_dropWhile (path : List α) :
    EndsInName sep dot (path.dropWhile fun a => a = sep) ↔ EndsInName sep dot path := by
  induction path with
  | nil => rfl
  | cons a path ih =>
    by_cases ha : a = sep
    · rw [List.dropWhile_cons_of_pos (by simpa using ha), ih, ha, endsInName_sep]
    · rw [List.dropWhile_cons_of_neg (by simpa using ha)]

end GitCore
