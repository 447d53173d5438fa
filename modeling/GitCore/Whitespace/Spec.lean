import GitCore.Whitespace.Fix

/-!
# When a fixed line is clean and stays as it is

The end of a line and its indent are fixed apart from each other. The end is always fixed for good, the indent unless
the rules on it need more than the one repair that is made.
-/

namespace GitCore.Whitespace

open Config (isspace)

variable {rule : UInt32} {ind : Indent} {left rest line out tail : List UInt8}

def EndsSolid (out : List UInt8) : Prop := ∀ c ∈ out.getLast?, isspace c = false

lemma endsSolid_rdropWhile (line : List UInt8) : EndsSolid (line.rdropWhile isspace) := by
  intro c hc
  have hne : line.rdropWhile isspace ≠ [] := fun hnil => by
    rw [hnil] at hc
    cases hc
  rw [List.getLast?_eq_getLast_of_ne_nil hne] at hc
  rw [← Option.some.inj hc]
  exact Bool.eq_false_iff.mpr (List.rdropWhile_last_not isspace line hne)

lemma EndsSolid.rdropWhile_eq (hsolid : EndsSolid out) : out.rdropWhile isspace = out := by
  rw [List.rdropWhile_eq_self_iff]
  intro hne
  exact Bool.eq_false_iff.mp (hsolid _ (List.getLast?_eq_getLast_of_ne_nil hne))

lemma EndsSolid.ne_newline (hsolid : EndsSolid out) : out.getLast? ≠ some newline := fun h =>
  absurd (hsolid newline h) (by decide)

lemma EndsSolid.ne_carriageReturn (hsolid : EndsSolid out) : out.getLast? ≠ some carriageReturn := fun h =>
  absurd (hsolid carriageReturn h) (by decide)

lemma endsSolid_of_not_any (hany : ¬ line.getLast?.any isspace = true) : EndsSolid line := by
  intro c hc
  rw [Option.mem_def.mp hc] at hany
  exact Bool.eq_false_iff.mpr hany

lemma stripTrailing_no_newline (hblank : has rule WS_BLANK_AT_EOL = true) (hline : line.getLast? ≠ some newline) :
    (stripTrailing line rule).src = line.rdropWhile isspace ∧
      (stripTrailing line rule).tail =
        if has rule WS_INCOMPLETE_LINE ∧ line ≠ [] then [newline] else [] := by
  have hincomplete : (has rule WS_INCOMPLETE_LINE = true ∧ line ≠ [] ∧ line.getLast? ≠ some newline) ↔
      has rule WS_INCOMPLETE_LINE = true ∧ line ≠ [] := by
    rw [and_iff_left hline]
  unfold stripTrailing
  simp only [hblank, if_true, if_neg hline, hincomplete]
  split_ifs with hany hhas hhas
  · exact ⟨rfl, by simp [Stripped.tail, hhas]⟩
  · exact ⟨rfl, by simp [Stripped.tail, hhas]⟩
  · exact ⟨(endsSolid_of_not_any hany).rdropWhile_eq.symm, by simp [Stripped.tail, hhas]⟩
  · exact ⟨(endsSolid_of_not_any hany).rdropWhile_eq.symm, by simp [Stripped.tail, hhas]⟩

lemma stripTrailing_newline (hblank : has rule WS_BLANK_AT_EOL = true) (hline : line.getLast? ≠ some carriageReturn) :
    (stripTrailing (line ++ [newline]) rule).src = line.rdropWhile isspace ∧
      (stripTrailing (line ++ [newline]) rule).tail = [newline] := by
  unfold stripTrailing
  simp only [hblank, if_true, List.getLast?_concat, List.dropLast_concat, if_neg hline]
  split_ifs with hany
  · exact ⟨rfl, rfl⟩
  · exact ⟨(endsSolid_of_not_any hany).rdropWhile_eq.symm, rfl⟩

lemma stripTrailing_crlf (hblank : has rule WS_BLANK_AT_EOL = true) (line : List UInt8) :
    (stripTrailing (line ++ [carriageReturn, newline]) rule).src = line.rdropWhile isspace ∧
      (stripTrailing (line ++ [carriageReturn, newline]) rule).tail =
        if has rule WS_CR_AT_EOL then [carriageReturn, newline] else [newline] := by
  have hlast : (line ++ [carriageReturn, newline]).getLast? = some newline := by
    rw [List.getLast?_append]
    rfl
  have hdrop : (line ++ [carriageReturn, newline]).dropLast = line ++ [carriageReturn] := by
    rw [List.dropLast_append_of_ne_nil (List.cons_ne_nil _ _)]
    rfl
  unfold stripTrailing
  simp only [hblank, if_true, hlast, hdrop, List.getLast?_concat, List.dropLast_concat]
  split_ifs with hany hhas hhas
  · exact ⟨rfl, by simp [Stripped.tail, hhas]⟩
  · exact ⟨rfl, by simp [Stripped.tail, hhas]⟩
  · exact ⟨(endsSolid_of_not_any hany).rdropWhile_eq.symm, by simp [Stripped.tail, hhas]⟩
  · exact ⟨(endsSolid_of_not_any hany).rdropWhile_eq.symm, by simp [Stripped.tail, hhas]⟩

def EolTail (rule : UInt32) (out tail : List UInt8) : Prop :=
  (tail = [] ∧ (has rule WS_INCOMPLETE_LINE = true → out = [])) ∨ tail = [newline] ∨
    (tail = [carriageReturn, newline] ∧ has rule WS_CR_AT_EOL = true)

lemma eol_cases (line : List UInt8) : line.getLast? ≠ some newline ∨
    (∃ left, line = left ++ [newline] ∧ left.getLast? ≠ some carriageReturn) ∨
    ∃ left, line = left ++ [carriageReturn, newline] := by
  by_cases hnewline : line.getLast? = some newline
  · obtain ⟨left, rfl⟩ := List.getLast?_eq_some_iff.mp hnewline
    by_cases hcr : left.getLast? = some carriageReturn
    · obtain ⟨left', rfl⟩ := List.getLast?_eq_some_iff.mp hcr
      exact .inr (.inr ⟨left', List.append_assoc _ _ _⟩)
    · exact .inr (.inl ⟨left, rfl, hcr⟩)
  · exact .inl hnewline

lemma stripTrailing_blank (hblank : has rule WS_BLANK_AT_EOL = true) (line : List UInt8) :
    EndsSolid (stripTrailing line rule).src ∧ EolTail rule (stripTrailing line rule).src (stripTrailing line rule).tail ∧
      (∃ spaces, line = (stripTrailing line rule).src ++ spaces ∧ ∀ c ∈ spaces, isspace c = true) ∧
      (has rule WS_INCOMPLETE_LINE = true → line ≠ [] → (stripTrailing line rule).tail ≠ []) := by
  have hspaces : ∀ left : List UInt8, ∀ c ∈ left.rtakeWhile isspace, isspace c = true := fun left c hc =>
    List.mem_rtakeWhile_imp hc
  rcases eol_cases line with hline | ⟨left, rfl, hleft⟩ | ⟨left, rfl⟩
  · obtain ⟨hsrc, htail⟩ := stripTrailing_no_newline hblank hline
    rw [hsrc, htail]
    refine ⟨endsSolid_rdropWhile line, ?_, ⟨_, List.rdropWhile_append_rtakeWhile.symm, hspaces line⟩,
      fun hhas hne => ?_⟩
    · split_ifs with hhas
      · exact .inr (.inl rfl)
      · refine .inl ⟨rfl, fun h => ?_⟩
        rw [not_and_not_right.mp hhas h]
        rfl
    · rw [if_pos ⟨hhas, hne⟩]
      exact List.cons_ne_nil _ _
  · obtain ⟨hsrc, htail⟩ := stripTrailing_newline hblank hleft
    rw [hsrc, htail]
    refine ⟨endsSolid_rdropWhile left, .inr (.inl rfl), ⟨left.rtakeWhile isspace ++ [newline], ?_, ?_⟩,
      fun _ _ => List.cons_ne_nil _ _⟩
    · rw [← List.append_assoc, List.rdropWhile_append_rtakeWhile]
    · exact List.forall_mem_append.mpr ⟨hspaces left, List.forall_mem_singleton.mpr rfl⟩
  · obtain ⟨hsrc, htail⟩ := stripTrailing_crlf hblank left
    rw [hsrc, htail]
    refine ⟨endsSolid_rdropWhile left, ?_, ⟨left.rtakeWhile isspace ++ [carriageReturn, newline], ?_, ?_⟩,
      fun _ _ => ?_⟩
    · split_ifs with hhas
      · exact .inr (.inr ⟨rfl, hhas⟩)
      · exact .inr (.inl rfl)
    · rw [← List.append_assoc, List.rdropWhile_append_rtakeWhile]
    · exact List.forall_mem_append.mpr ⟨hspaces left, List.forall_mem_cons.mpr ⟨rfl, List.forall_mem_singleton.mpr rfl⟩⟩
    · split_ifs <;> exact List.cons_ne_nil _ _

lemma stripTrailing_append (hblank : has rule WS_BLANK_AT_EOL = true) (hsolid : EndsSolid out)
    (htail : EolTail rule out tail) :
    (stripTrailing (out ++ tail) rule).src = out ∧ (stripTrailing (out ++ tail) rule).tail = tail := by
  rcases htail with ⟨rfl, hnil⟩ | rfl | ⟨rfl, hcr⟩
  · rw [List.append_nil]
    obtain ⟨hsrc, htail⟩ := stripTrailing_no_newline hblank hsolid.ne_newline
    refine ⟨hsrc.trans hsolid.rdropWhile_eq, htail.trans (if_neg ?_)⟩
    exact fun h => h.2 (hnil h.1)
  · obtain ⟨hsrc, htail⟩ := stripTrailing_newline hblank hsolid.ne_carriageReturn
    exact ⟨hsrc.trans hsolid.rdropWhile_eq, htail⟩
  · obtain ⟨hsrc, htail⟩ := stripTrailing_crlf hblank out
    exact ⟨hsrc.trans hsolid.rdropWhile_eq, htail.trans (if_pos hcr)⟩

lemma withoutEol_append_tail (hsolid : EndsSolid out) (htail : EolTail rule out tail) :
    withoutEol (out ++ tail) rule = out := by
  unfold withoutEol
  rcases htail with ⟨rfl, -⟩ | rfl | ⟨rfl, hcr⟩
  · simp only [List.append_nil]
    rw [if_neg hsolid.ne_newline, if_neg fun h => hsolid.ne_carriageReturn h.2]
  · simp only [List.getLast?_concat, List.dropLast_concat, if_true]
    rw [if_neg fun h => hsolid.ne_carriageReturn h.2]
  · have hlast : (out ++ [carriageReturn, newline]).getLast? = some newline := by
      rw [List.getLast?_append]
      rfl
    have hdrop : (out ++ [carriageReturn, newline]).dropLast = out ++ [carriageReturn] := by
      rw [List.dropLast_append_of_ne_nil (List.cons_ne_nil _ _)]
      rfl
    simp only [hlast, if_true, hdrop, List.getLast?_concat, List.dropLast_concat]
    rw [if_pos ⟨hcr, trivial⟩]

lemma wsCheck_eq_zero (hbody : withoutEol line rule = ind.bytes ++ rest) (hrest : EndsIndent rest)
    (hsolid : has rule WS_BLANK_AT_EOL = true → EndsSolid (ind.bytes ++ rest)) :
    wsCheck line rule = 0 ↔ (has rule WS_INCOMPLETE_LINE = true → line.getLast? = some newline) ∧ Clean rule ind := by
  have hfront : (if has rule WS_BLANK_AT_EOL = true then (ind.bytes ++ rest).rdropWhile isspace else ind.bytes ++ rest) =
      ind.bytes ++ rest := by
    split_ifs with hblank
    · exact (hsolid hblank).rdropWhile_eq
    · rfl
  unfold wsCheck
  simp only [hbody, hfront, lt_irrefl, if_false]
  obtain ⟨result, hcheck, hiff⟩ := @checkIndent_bytes rule rest ind hrest
    (if line.getLast? ≠ some newline ∧ has rule WS_INCOMPLETE_LINE = true then 0 ||| WS_INCOMPLETE_LINE else 0)
  simp only [hcheck, Nat.add_sub_cancel_left]
  have hincomplete : (if line.getLast? ≠ some newline ∧ has rule WS_INCOMPLETE_LINE = true then 0 ||| WS_INCOMPLETE_LINE
      else 0) = 0 ↔ (has rule WS_INCOMPLETE_LINE = true → line.getLast? = some newline) := by
    split_ifs with h
    · exact iff_of_false (by decide) fun hall => h.1 (hall h.2)
    · exact iff_of_true rfl fun hhas => by_contra fun hne => h ⟨hne, hhas⟩
  rw [hincomplete] at hiff
  split_ifs with hindent
  · rw [or_eq_zero]
    refine iff_of_false (fun h => absurd h.2 (by decide)) fun h => ?_
    exact absurd (h.2.indentWithNonTab hindent.1) (Nat.not_lt.mpr hindent.2)
  · rw [hiff]
    refine and_congr_right fun _ => ⟨fun h => ⟨h.1, h.2, fun hhas => ?_⟩, fun h => ⟨h.spaceBeforeTab, h.tabInIndent⟩⟩
    exact Nat.not_le.mp fun hle => hindent ⟨hhas, hle⟩

lemma mem_bytes {c : UInt8} (hc : c ∈ ind.bytes) : c = space ∨ c = tab := by
  rw [Indent.bytes, tabRuns, List.mem_append, List.mem_flatMap] at hc
  rcases hc with ⟨n, -, hc⟩ | hc
  · rcases List.mem_append.mp hc with hc | hc
    · exact .inl (List.eq_of_mem_replicate hc)
    · exact .inr (List.mem_singleton.mp hc)
  · exact .inl (List.eq_of_mem_replicate hc)

lemma EndsIndent.append (hrest : EndsIndent rest) (hne : rest ≠ []) (tail : List UInt8) : EndsIndent (rest ++ tail) := by
  intro c hc
  rw [List.head?_append_of_ne_nil rest hne] at hc
  exact hrest c hc

lemma indentFrom_spaces (n : Nat) (line : List UInt8) (k : Nat) :
    indentFrom (List.replicate n space ++ line) k = indentFrom line (k + n) := by
  induction n generalizing k with
  | zero => rfl
  | succ n ih =>
    rw [List.replicate_succ, List.cons_append, indentFrom, if_pos rfl, ih, Nat.add_right_comm]
    rfl

lemma indentOf_bytes (ind : Indent) (hrest : EndsIndent rest) : indentOf (ind.bytes ++ rest) = ind := by
  obtain ⟨before, after⟩ := ind
  rw [Indent.bytes, indentOf]
  induction before with
  | nil =>
    rw [tabRuns, List.flatMap_nil, List.nil_append, indentFrom_spaces, Nat.zero_add]
    cases rest with
    | nil => rfl
    | cons c rest =>
      obtain ⟨hspace, htab⟩ := hrest c rfl
      rw [indentFrom, if_neg hspace, if_neg htab]
  | cons n before ih =>
    have htab : tab ≠ space := by decide
    simp only [tabRuns_cons, List.append_assoc, List.cons_append, indentFrom_spaces, Nat.zero_add, indentFrom, if_neg htab,
      if_true] at ih ⊢
    rw [ih]

lemma EndsSolid.bytes_eq_nil (hsolid : EndsSolid ind.bytes) : ind.bytes = [] := by
  by_contra hne
  have hlast := hsolid _ (List.getLast?_eq_getLast_of_ne_nil hne)
  rcases mem_bytes (List.getLast_mem hne) with hspace | htab
  · rw [hspace] at hlast
    exact absurd hlast (by decide)
  · rw [htab] at hlast
    exact absurd hlast (by decide)

lemma unfixable_stripTrailing (hwidth : 0 < wsTabWidth rule) (hblank : has rule WS_BLANK_AT_EOL = true)
    (line : List UInt8) : Unfixable rule (indentOf (stripTrailing line rule).src) ↔
      Unfixable rule (indentOf line) ∧ ¬ ∀ c ∈ line, isspace c = true := by
  obtain ⟨hsolid, -, ⟨spaces, hline, hspaces⟩, -⟩ := stripTrailing_blank hblank line
  obtain ⟨rest, hsrc, hrest⟩ := exists_indentOf (stripTrailing line rule).src
  by_cases hnil : (stripTrailing line rule).src = []
  · rw [hnil, List.nil_append] at hline
    refine iff_of_false ?_ fun h => h.2 (hline ▸ hspaces)
    rw [hnil]
    rintro ⟨-, ⟨-, n, hn, -⟩ | ⟨-, hne | hle⟩⟩
    · exact List.not_mem_nil hn
    · exact hne rfl
    · exact Nat.not_lt.mpr hle hwidth
  · have hne : rest ≠ [] := fun hzero => by
      rw [hzero, List.append_nil] at hsrc
      rw [hsrc] at hsolid hnil
      exact hnil hsolid.bytes_eq_nil
    have hsame : indentOf line = indentOf (stripTrailing line rule).src := by
      conv_lhs => rw [hline, hsrc, List.append_assoc]
      exact indentOf_bytes _ (hrest.append hne spaces)
    rw [hsame, and_iff_left]
    intro hall
    have hlast := hsolid _ (List.getLast?_eq_getLast_of_ne_nil hnil)
    have hbase : (stripTrailing line rule).src <+: line := ⟨spaces, hline.symm⟩
    rw [hall _ (hbase.subset (List.getLast_mem hnil))] at hlast
    cases hlast

lemma fixIndent_nil (rule : UInt32) : fixIndent [] rule = ([], false) := by
  rw [fixIndent, scanIndent]
  simp

def fixedLine (line : List UInt8) (rule : UInt32) : List UInt8 :=
  (fixIndent (stripTrailing line rule).src rule).1 ++ (stripTrailing line rule).tail

lemma wsFixCopy_eq (dst line : List UInt8) (rule : UInt32) : (wsFixCopy dst line rule).1 = dst ++ fixedLine line rule :=
  List.append_assoc _ _ _

lemma fixIndent_of_clean (hwidth : 0 < wsTabWidth rule) (hrest : EndsIndent rest) (hclean : Clean rule ind)
    (hneed : ¬ NeedsFix rule ind) : (fixIndent (ind.bytes ++ rest) rule).1 = ind.bytes ++ rest := by
  rw [fixIndent_of_not hwidth hrest hneed hclean.tabInIndent]

lemma fixedLine_blank (hwidth : 0 < wsTabWidth rule) (hblank : has rule WS_BLANK_AT_EOL = true) (line : List UInt8) :
    (wsCheck (fixedLine line rule) rule = 0 ∧ fixedLine (fixedLine line rule) rule = fixedLine line rule) ↔
      ¬ (has rule WS_INCOMPLETE_LINE = true ∧ line = []) ∧ ¬ Unfixable rule (indentOf (stripTrailing line rule).src) := by
  obtain ⟨hsolid, heol, ⟨spaces, hline, -⟩, htail⟩ := stripTrailing_blank hblank line
  obtain ⟨rest, hsrc, hrest⟩ := exists_indentOf (stripTrailing line rule).src
  obtain ⟨fixed, hfix, hclean, hneed⟩ := @fixIndent_bytes rule rest hwidth (indentOf (stripTrailing line rule).src) hrest
  rw [← hsrc] at hfix
  have hnil : (stripTrailing line rule).src = [] → fixed.bytes ++ rest = [] := fun hzero => by
    rw [← hfix, hzero, fixIndent_nil]
  have hout : EndsSolid (fixed.bytes ++ rest) := by
    by_cases hempty : rest = []
    · rw [hempty, List.append_nil] at hsrc
      rw [hsrc] at hsolid hnil
      rw [hnil hsolid.bytes_eq_nil]
      exact fun c hc => by cases hc
    · intro c hc
      rw [List.getLast?_append_of_ne_nil _ hempty] at hc
      refine hsolid c ?_
      rw [hsrc, List.getLast?_append_of_ne_nil _ hempty]
      exact hc
  have heol' : EolTail rule (fixed.bytes ++ rest) (stripTrailing line rule).tail :=
    heol.imp_left fun h => ⟨h.1, fun hhas => hnil (h.2 hhas)⟩
  have hfixed : fixedLine line rule = fixed.bytes ++ rest ++ (stripTrailing line rule).tail := by
    rw [fixedLine, hfix]
  obtain ⟨hagain, htail'⟩ := stripTrailing_append hblank hout heol'
  have hend : (has rule WS_INCOMPLETE_LINE = true → (fixedLine line rule).getLast? = some newline) ↔
      ¬ (has rule WS_INCOMPLETE_LINE = true ∧ line = []) := by
    rw [not_and]
    refine forall_congr' fun hhas => ⟨?_, fun hne => ?_⟩
    · rintro hlast rfl
      have hempty : fixedLine [] rule = [] := by
        obtain ⟨hsrc', htail''⟩ := @stripTrailing_no_newline rule [] hblank (by decide)
        rw [fixedLine, hsrc', htail'', List.rdropWhile_nil, fixIndent_nil, if_neg fun h => h.2 rfl]
        rfl
      rw [hempty] at hlast
      cases hlast
    · rw [hfixed]
      rcases heol with ⟨hzero, -⟩ | hnl | ⟨hcrlf, -⟩
      · exact absurd hzero (htail hhas hne)
      · rw [hnl, List.getLast?_concat]
      · rw [hcrlf, List.getLast?_append]
        rfl
  rw [wsCheck_eq_zero (by rw [hfixed]; exact withoutEol_append_tail hout heol') hrest fun _ => hout, hend, hclean]
  refine ⟨fun h => h.1, fun h => ⟨h, ?_⟩⟩
  rw [hfixed, fixedLine, hagain, htail', fixIndent_of_clean hwidth hrest (hclean.mpr h.2) (hneed h.2)]

lemma getLast?_bytes_append (ind : Indent) (rest : List UInt8) {c : UInt8} (hc : c = newline ∨ c = carriageReturn) :
    (ind.bytes ++ rest).getLast? = some c ↔ rest.getLast? = some c := by
  by_cases hrest : rest = []
  · rw [hrest, List.append_nil]
    refine iff_of_false (fun h => ?_) fun h => by cases h
    rcases mem_bytes (List.mem_of_getLast? h) with rfl | rfl
    · exact absurd hc (by decide)
    · exact absurd hc (by decide)
  · rw [List.getLast?_append_of_ne_nil _ hrest]

lemma dropLast_append_of_getLast? {c : UInt8} (left : List UInt8) (hc : rest.getLast? = some c) :
    (left ++ rest).dropLast = left ++ rest.dropLast :=
  List.dropLast_append_of_ne_nil fun hzero => by
    rw [hzero] at hc
    cases hc

lemma withoutEol_bytes (ind : Indent) (rest : List UInt8) (rule : UInt32) :
    withoutEol (ind.bytes ++ rest) rule = ind.bytes ++ withoutEol rest rule := by
  have hfirst : (if (ind.bytes ++ rest).getLast? = some newline then (ind.bytes ++ rest).dropLast else ind.bytes ++ rest) =
      ind.bytes ++ if rest.getLast? = some newline then rest.dropLast else rest := by
    rw [if_congr (getLast?_bytes_append ind rest (.inl rfl)) rfl rfl]
    split_ifs with hnl
    · exact dropLast_append_of_getLast? _ hnl
    · rfl
  unfold withoutEol
  simp only [hfirst]
  generalize (if rest.getLast? = some newline then rest.dropLast else rest) = left
  rw [if_congr (and_congr_right fun _ => getLast?_bytes_append ind left (.inr rfl)) rfl rfl]
  split_ifs with hcr
  · exact dropLast_append_of_getLast? _ hcr.2
  · rfl

lemma withoutEol_isPrefix (line : List UInt8) (rule : UInt32) : withoutEol line rule <+: line := by
  have hfirst : (if line.getLast? = some newline then line.dropLast else line) <+: line := by
    split_ifs
    · exact List.dropLast_prefix line
    · exact List.prefix_refl line
  unfold withoutEol
  simp only []
  revert hfirst
  generalize (if line.getLast? = some newline then line.dropLast else line) = left
  intro hfirst
  split_ifs
  · exact (List.dropLast_prefix left).trans hfirst
  · exact hfirst

lemma EndsIndent.of_prefix (hrest : EndsIndent rest) (hleft : left <+: rest) : EndsIndent left := by
  obtain ⟨right, rfl⟩ := hleft
  intro c hc
  refine hrest c ?_
  cases left with
  | nil => cases hc
  | cons d left => exact hc

lemma stripTrailing_keep (hblank : ¬ has rule WS_BLANK_AT_EOL = true) (line : List UInt8) :
    (stripTrailing line rule).src = line ∧ (stripTrailing line rule).tail =
      if has rule WS_INCOMPLETE_LINE = true ∧ line ≠ [] ∧ line.getLast? ≠ some newline then [newline] else [] := by
  unfold stripTrailing
  simp only [if_neg hblank]
  refine ⟨trivial, ?_⟩
  split_ifs with h <;> simp [Stripped.tail, h]

lemma fixedLine_keep (hwidth : 0 < wsTabWidth rule) (hblank : ¬ has rule WS_BLANK_AT_EOL = true) (line : List UInt8) :
    (wsCheck (fixedLine line rule) rule = 0 ∧ fixedLine (fixedLine line rule) rule = fixedLine line rule) ↔
      ¬ (has rule WS_INCOMPLETE_LINE = true ∧ line = []) ∧ ¬ Unfixable rule (indentOf line) := by
  obtain ⟨hsrc, htail⟩ := stripTrailing_keep hblank line
  obtain ⟨rest, hline, hrest⟩ := exists_indentOf line
  obtain ⟨fixed, hfix, hclean, hneed⟩ := @fixIndent_bytes rule rest hwidth (indentOf line) hrest
  rw [← hline] at hfix
  have hfixed : fixedLine line rule = fixed.bytes ++ (rest ++ (stripTrailing line rule).tail) := by
    rw [fixedLine, hsrc, hfix, List.append_assoc]
  have hends : EndsIndent (rest ++ (stripTrailing line rule).tail) := by
    by_cases hempty : rest = []
    · rw [hempty, List.nil_append, htail]
      split_ifs
      · intro c hc
        rw [← Option.some.inj hc]
        decide
      · exact fun c hc => by cases hc
    · exact hrest.append hempty _
  have hend : (has rule WS_INCOMPLETE_LINE = true → (fixedLine line rule).getLast? = some newline) ↔
      ¬ (has rule WS_INCOMPLETE_LINE = true ∧ line = []) := by
    rw [not_and]
    refine forall_congr' fun hhas => ⟨?_, fun hne => ?_⟩
    · rintro hlast rfl
      rw [fixedLine, hsrc, htail, fixIndent_nil, if_neg fun h => h.2.1 rfl] at hlast
      cases hlast
    · rw [hfixed]
      by_cases hnl : line.getLast? = some newline
      · rw [htail, if_neg fun h => h.2.2 hnl, List.append_nil, getLast?_bytes_append _ _ (.inl rfl)]
        rw [hline] at hnl
        exact (getLast?_bytes_append _ _ (.inl rfl)).mp hnl
      · rw [htail, if_pos ⟨hhas, hne, hnl⟩, ← List.append_assoc, List.getLast?_concat]
  rw [wsCheck_eq_zero (by rw [hfixed]; exact withoutEol_bytes _ _ _) (hends.of_prefix (withoutEol_isPrefix _ _))
    fun h => absurd h hblank, hend, hclean]
  refine ⟨fun h => h.1, fun h => ⟨h, ?_⟩⟩
  obtain ⟨hsrc', htail'⟩ := stripTrailing_keep hblank (fixedLine line rule)
  rw [fixedLine, hsrc', htail', if_neg fun h' => h'.2.2 (hend.mpr h.1 h'.1), List.append_nil, hfixed,
    fixIndent_of_clean hwidth hends (hclean.mpr h.2) (hneed h.2)]

/-- A fixed line passes the check and is not changed by another fix, exactly unless it is empty and has to end with a
newline, or its indent is to have no tabs and has a space before a tab, or must also not be of spaces. -/
theorem wsFixCopy_settles (line : List UInt8) (rule : UInt32) (hwidth : 0 < wsTabWidth rule) :
    ∃ fixed, (∀ dst, (wsFixCopy dst line rule).1 = dst ++ fixed) ∧
      ((wsCheck fixed rule = 0 ∧ ∀ dst, (wsFixCopy dst fixed rule).1 = dst ++ fixed) ↔
        ¬ (has rule WS_INCOMPLETE_LINE = true ∧ line = []) ∧
          ¬ (Unfixable rule (indentOf line) ∧ ¬ (has rule WS_BLANK_AT_EOL = true ∧ ∀ c ∈ line, isspace c = true))) := by
  refine ⟨fixedLine line rule, fun dst => wsFixCopy_eq dst line rule, ?_⟩
  have hsame : (∀ dst, (wsFixCopy dst (fixedLine line rule) rule).1 = dst ++ fixedLine line rule) ↔
      fixedLine (fixedLine line rule) rule = fixedLine line rule :=
    ⟨fun h => (wsFixCopy_eq [] _ rule).symm.trans (h []), fun h dst => by rw [wsFixCopy_eq, h]⟩
  rw [hsame]
  by_cases hblank : has rule WS_BLANK_AT_EOL = true
  · rw [fixedLine_blank hwidth hblank, unfixable_stripTrailing hwidth hblank, and_iff_right hblank]
  · have hkept : Unfixable rule (indentOf line) ∧ ¬ (has rule WS_BLANK_AT_EOL = true ∧ ∀ c ∈ line, isspace c = true) ↔
        Unfixable rule (indentOf line) := and_iff_left fun h => hblank h.1
    rw [fixedLine_keep hwidth hblank, hkept]

theorem wsFixCopy_settles_spaceBeforeTab : 0 < wsTabWidth (8 ||| WS_SPACE_BEFORE_TAB) ∧
    ∃ fixed, (∀ dst, (wsFixCopy dst [space, space, tab, 0x78, newline] (8 ||| WS_SPACE_BEFORE_TAB)).1 = dst ++ fixed) ∧
      wsCheck fixed (8 ||| WS_SPACE_BEFORE_TAB) = 0 := by
  refine ⟨by decide, ?_⟩
  obtain ⟨fixed, hfixed, hiff⟩ :=
    wsFixCopy_settles [space, space, tab, 0x78, newline] (8 ||| WS_SPACE_BEFORE_TAB) (by decide)
  exact ⟨fixed, hfixed, (hiff.mpr ⟨fun h => absurd h.2 (by decide), fun h => absurd h.1.1 (by decide)⟩).1⟩

/-- With the rules against a space before a tab and against tabs in the indent, the tab stays. -/
theorem wsFixCopy_keepsTab : (wsFixCopy [] [space, space, tab, 0x78, newline]
      (8 ||| WS_SPACE_BEFORE_TAB ||| WS_TAB_IN_INDENT)).1 = [tab, 0x78, newline] ∧
    wsCheck [tab, 0x78, newline] (8 ||| WS_SPACE_BEFORE_TAB ||| WS_TAB_IN_INDENT) = WS_TAB_IN_INDENT := by
  decide

end GitCore.Whitespace
