import GitCore.Whitespace.Model

/-!
# Fixing an indent

A fixed indent has only tabs before its last spaces, or only spaces.
-/

namespace GitCore.Whitespace

variable {rule : UInt32} {ind : Indent} {rest line : List UInt8} {width n : Nat} {ns : List Nat}

def tabsThenSpaces (tabs spaces : Nat) : Indent := ⟨List.replicate tabs 0, spaces⟩

lemma tabRuns_replicate (tabs : Nat) : tabRuns (List.replicate tabs 0) = List.replicate tabs tab := by
  induction tabs with
  | zero => rfl
  | succ tabs ih => rw [List.replicate_succ, tabRuns_cons, ih]; rfl

lemma tabsThenSpaces_bytes (tabs spaces : Nat) :
    (tabsThenSpaces tabs spaces).bytes = List.replicate tabs tab ++ List.replicate spaces space := by
  rw [tabsThenSpaces, Indent.bytes, tabRuns_replicate]

lemma retab_spaces (n : Nat) (line : List UInt8) {k : Nat} (hk : k < width) :
    retab width (List.replicate n space ++ line) k =
      List.replicate ((k + n) / width) tab ++ retab width line ((k + n) % width) := by
  induction n generalizing k with
  | zero => rw [Nat.add_zero, Nat.div_eq_of_lt hk, Nat.mod_eq_of_lt hk]; rfl
  | succ n ih =>
    rw [List.replicate_succ, List.cons_append, retab, if_neg (not_not.mpr rfl)]
    have hpos : 0 < width := Nat.zero_lt_of_lt hk
    by_cases hfull : k + 1 = width
    · have hsum : k + (n + 1) = 0 + n + width := by omega
      rw [if_pos hfull, ih hpos, hsum, Nat.add_div_right _ hpos, Nat.add_mod_right]
      rfl
    · rw [if_neg hfull, ih (by omega), Nat.add_right_comm]
      rfl

def tabCount (width : Nat) (ns : List Nat) : Nat := (ns.map fun n => n / width + 1).sum

lemma length_le_tabCount (width : Nat) (ns : List Nat) : ns.length ≤ tabCount width ns := by
  induction ns with
  | nil => exact Nat.zero_le _
  | cons n ns ih =>
    rw [tabCount, List.map_cons, List.sum_cons, ← tabCount, List.length_cons, Nat.add_comm]
    exact Nat.add_le_add (Nat.le_add_left 1 _) ih

lemma retab_tabRuns (hwidth : 0 < width) (ns : List Nat) (line : List UInt8) :
    retab width (tabRuns ns ++ line) 0 = List.replicate (tabCount width ns) tab ++ retab width line 0 := by
  induction ns with
  | nil => rfl
  | cons n ns ih =>
    have hcount : tabCount width (n :: ns) = n / width + 1 + tabCount width ns := by
      rw [tabCount, List.map_cons, List.sum_cons, ← tabCount]
    rw [tabRuns_cons, List.append_assoc, List.cons_append, retab_spaces n _ hwidth, Nat.zero_add, retab,
      if_pos (by decide), ih, hcount, List.replicate_add, List.replicate_succ', List.append_assoc, List.append_assoc]
    rfl

lemma fillTab_spaces (n : Nat) {filled : Nat} (hwidth : 0 < width) (hfuel : width ≤ filled % width + n) :
    ∃ total, fillTab width n (List.replicate filled space) = List.replicate total space ∧ 0 < total ∧
      total % width = 0 := by
  induction n generalizing filled with
  | zero => exact absurd (Nat.mod_lt filled hwidth) (by omega)
  | succ n ih =>
    rw [fillTab, List.length_replicate, ← List.replicate_succ']
    by_cases hstop : (filled + 1) % width = 0
    · rw [if_pos hstop]
      exact ⟨filled + 1, rfl, Nat.succ_pos filled, hstop⟩
    · rw [if_neg hstop]
      have hmod : (filled + 1) % width = filled % width + 1 := by
        have hlt := Nat.mod_lt filled hwidth
        rw [Nat.add_mod] at hstop ⊢
        by_cases hone : width = 1
        · rw [hone, Nat.mod_one] at hstop
          exact absurd rfl hstop
        · rw [Nat.mod_eq_of_lt (show 1 < width by omega)] at hstop ⊢
          refine Nat.mod_eq_of_lt (Nat.lt_of_le_of_ne hlt fun heq => hstop ?_)
          rw [show filled % width + 1 = width from heq, Nat.mod_self]
      exact ih (by omega)

lemma expandTabs_spaces (n : Nat) (line : List UInt8) (filled : Nat) :
    expandTabs width (List.replicate n space ++ line) (List.replicate filled space) =
      expandTabs width line (List.replicate (filled + n) space) := by
  induction n generalizing filled with
  | zero => rfl
  | succ n ih =>
    rw [List.replicate_succ, List.cons_append, expandTabs, if_neg (by decide), ← List.replicate_succ', ih,
      Nat.add_right_comm]
    rfl

lemma expandTabs_tabRuns (hwidth : 0 < width) (ns : List Nat) (filled : Nat) :
    ∃ total, expandTabs width (tabRuns ns) (List.replicate filled space) = List.replicate total space ∧
      (ns ≠ [] → width ≤ total) ∧ (width ≤ filled → width ≤ total) := by
  induction ns generalizing filled with
  | nil => exact ⟨filled, rfl, fun h => absurd rfl h, id⟩
  | cons n ns ih =>
    rw [tabRuns_cons, expandTabs_spaces, expandTabs, if_pos rfl]
    obtain ⟨stop, hfill, hpos, hmod⟩ := @fillTab_spaces width width (filled + n) hwidth (Nat.le_add_left _ _)
    obtain ⟨total, hexpand, -, hle⟩ := ih stop
    have hstop : width ≤ stop := Nat.le_of_dvd hpos (Nat.dvd_of_mod_eq_zero hmod)
    rw [hfill]
    exact ⟨total, hexpand, fun _ => hle hstop, fun _ => hle hstop⟩

def Unfixable (rule : UInt32) (ind : Indent) : Prop :=
  has rule WS_TAB_IN_INDENT = true ∧
    ((has rule WS_SPACE_BEFORE_TAB = true ∧ ∃ n ∈ ind.before, 0 < n) ∨
      has rule WS_INDENT_WITH_NON_TAB = true ∧ (ind.before ≠ [] ∨ wsTabWidth rule ≤ ind.after))

lemma NeedsFix.before_ne_nil (hspaces : ∃ n ∈ ind.before, width ≤ n) : ind.before ≠ [] := by
  obtain ⟨n, hn, -⟩ := hspaces
  exact List.ne_nil_of_mem hn

lemma unfixable_iff : Unfixable rule ind ↔ has rule WS_TAB_IN_INDENT = true ∧
    (NeedsFix rule ind ∨ has rule WS_INDENT_WITH_NON_TAB = true ∧ ind.before ≠ []) := by
  refine and_congr_right fun _ => ⟨?_, ?_⟩
  · rintro (hspace | ⟨hindent, hne | hle⟩)
    · exact .inl (.inl hspace)
    · exact .inr ⟨hindent, hne⟩
    · exact .inl (.inr ⟨hindent, .inr hle⟩)
  · rintro ((hspace | ⟨hindent, hspaces | hle⟩) | ⟨hindent, hne⟩)
    · exact .inl hspace
    · exact .inr ⟨hindent, .inl (NeedsFix.before_ne_nil hspaces)⟩
    · exact .inr ⟨hindent, .inr hle⟩
    · exact .inr ⟨hindent, .inl hne⟩

lemma fixIndent_of_needsFix (hwidth : 0 < wsTabWidth rule) (hrest : EndsIndent rest) (hneed : NeedsFix rule ind) :
    ∃ tabs spaces, (fixIndent (ind.bytes ++ rest) rule).1 = (tabsThenSpaces tabs spaces).bytes ++ rest ∧ 0 < tabs ∧
      (has rule WS_INDENT_WITH_NON_TAB = true → spaces < wsTabWidth rule) := by
  obtain ⟨lastSpace, need, hscan, hafter, hzero, hiff⟩ := scanIndent_bytes hwidth ind hrest
  have hbytes : ind.bytes.length = (tabRuns ind.before).length + ind.after := by
    rw [Indent.bytes, List.length_append, List.length_replicate]
  have hcount : ind.before ≠ [] → 0 < tabCount (wsTabWidth rule) ind.before := fun hne =>
    (List.length_pos_iff.mpr hne).trans_le (length_le_tabCount _ _)
  rw [fixIndent, hscan]
  simp only [hiff.mpr hneed, if_true, sub_add_cancel]
  by_cases hindent : has rule WS_INDENT_WITH_NON_TAB = true
  · have hlast : (if ((tabRuns ind.before).length : Int) - 1 < lastSpace then lastSpace + 1
        else ((tabRuns ind.before).length : Int)) = (ind.bytes.length : Int) := by
      split_ifs <;> omega
    rw [if_pos hindent, hlast, Int.toNat_natCast, List.take_left', List.drop_left']
    refine ⟨tabCount (wsTabWidth rule) ind.before + ind.after / wsTabWidth rule, ind.after % wsTabWidth rule, ?_, ?_,
      fun _ => Nat.mod_lt _ hwidth⟩
    · rw [Indent.bytes, retab_tabRuns hwidth, ← List.append_nil (List.replicate ind.after space), retab_spaces _ _ hwidth,
        Nat.zero_add, retab, tabsThenSpaces_bytes, List.replicate_add]
      simp only [List.append_assoc]
    · rcases hneed with ⟨-, hspaces⟩ | ⟨-, hspaces | hle⟩
      · exact Nat.add_pos_left (hcount (NeedsFix.before_ne_nil hspaces)) _
      · exact Nat.add_pos_left (hcount (NeedsFix.before_ne_nil hspaces)) _
      · exact Nat.add_pos_right _ (Nat.div_pos hle hwidth)
    · rfl
    · rfl
  · rw [if_neg hindent, Int.toNat_natCast, Indent.bytes, List.append_assoc, List.take_left', List.drop_left']
    refine ⟨tabCount (wsTabWidth rule) ind.before, ind.after, ?_, ?_, fun h => absurd h hindent⟩
    · rw [← List.append_nil (tabRuns ind.before), retab_tabRuns hwidth, retab, tabsThenSpaces_bytes, List.replicate_zero,
        List.append_nil, List.append_assoc]
    · rcases hneed with ⟨-, hspaces⟩ | ⟨h, -⟩
      · exact hcount (NeedsFix.before_ne_nil hspaces)
      · exact absurd h hindent
    · rfl
    · rfl

lemma fixIndent_of_tab (hwidth : 0 < wsTabWidth rule) (hrest : EndsIndent rest) (hneed : ¬ NeedsFix rule ind)
    (htab : has rule WS_TAB_IN_INDENT = true) (hne : ind.before ≠ []) :
    ∃ spaces, (fixIndent (ind.bytes ++ rest) rule).1 = (tabsThenSpaces 0 spaces).bytes ++ rest ∧
      wsTabWidth rule ≤ spaces := by
  obtain ⟨lastSpace, need, hscan, -, -, hiff⟩ := scanIndent_bytes hwidth ind hrest
  obtain ⟨total, hexpand, hle, -⟩ := expandTabs_tabRuns hwidth ind.before 0
  have hpos : 0 ≤ ((tabRuns ind.before).length : Int) - 1 := by
    obtain ⟨n, ns, hcons⟩ := List.exists_cons_of_ne_nil hne
    rw [hcons, tabRuns_cons, List.length_append, List.length_cons]
    omega
  have hnot : need = false := Bool.eq_false_iff.mpr fun h => hneed (hiff.mp h)
  rw [fixIndent, hscan]
  simp only [hnot, sub_add_cancel]
  rw [if_neg Bool.false_ne_true, if_pos ⟨htab, hpos⟩, Int.toNat_natCast, Indent.bytes, List.append_assoc, List.take_left',
    List.drop_left']
  · rw [List.replicate_zero] at hexpand
    refine ⟨total + ind.after, ?_, (hle hne).trans (Nat.le_add_right _ _)⟩
    rw [hexpand, tabsThenSpaces_bytes, List.replicate_zero, List.nil_append, List.replicate_add, List.append_assoc]
  · rfl
  · rfl

lemma fixIndent_of_not (hwidth : 0 < wsTabWidth rule) (hrest : EndsIndent rest) (hneed : ¬ NeedsFix rule ind)
    (htab : has rule WS_TAB_IN_INDENT = true → ind.before = []) :
    fixIndent (ind.bytes ++ rest) rule = (ind.bytes ++ rest, false) := by
  obtain ⟨lastSpace, need, hscan, -, -, hiff⟩ := scanIndent_bytes hwidth ind hrest
  have hnot : need = false := Bool.eq_false_iff.mpr fun h => hneed (hiff.mp h)
  rw [fixIndent, hscan]
  simp only [hnot]
  rw [if_neg Bool.false_ne_true, if_neg]
  rintro ⟨hhas, hle⟩
  rw [htab hhas] at hle
  exact absurd hle (by decide)

lemma tabsThenSpaces_not_needsFix {tabs spaces : Nat} (hwidth : 0 < wsTabWidth rule)
    (hlt : has rule WS_INDENT_WITH_NON_TAB = true → spaces < wsTabWidth rule) :
    ¬ NeedsFix rule (tabsThenSpaces tabs spaces) := by
  rintro (⟨-, n, hn, hpos⟩ | ⟨hhas, ⟨n, hn, hle⟩ | hle⟩)
  · exact hpos.ne' (List.eq_of_mem_replicate hn)
  · rw [List.eq_of_mem_replicate hn] at hle
    exact Nat.not_lt.mpr hle hwidth
  · exact Nat.not_lt.mpr hle (hlt hhas)

lemma fixIndent_bytes (hwidth : 0 < wsTabWidth rule) (ind : Indent) (hrest : EndsIndent rest) :
    ∃ fixed : Indent, (fixIndent (ind.bytes ++ rest) rule).1 = fixed.bytes ++ rest ∧
      (Clean rule fixed ↔ ¬ Unfixable rule ind) ∧ (¬ Unfixable rule ind → ¬ NeedsFix rule fixed) := by
  rw [unfixable_iff]
  by_cases hneed : NeedsFix rule ind
  · obtain ⟨tabs, spaces, hfix, hpos, hlt⟩ := fixIndent_of_needsFix hwidth hrest hneed
    refine ⟨tabsThenSpaces tabs spaces, hfix, ⟨fun hclean hun => ?_, fun hun => ?_⟩, fun _ =>
      tabsThenSpaces_not_needsFix hwidth hlt⟩
    · have hnil := List.length_eq_zero_iff.mpr (hclean.tabInIndent hun.1)
      rw [tabsThenSpaces, List.length_replicate] at hnil
      exact hpos.ne' hnil
    · exact ⟨fun _ n hn => List.eq_of_mem_replicate hn, fun h => absurd ⟨h, .inl hneed⟩ hun, hlt⟩
  · by_cases htab : has rule WS_TAB_IN_INDENT = true ∧ ind.before ≠ []
    · obtain ⟨spaces, hfix, hle⟩ := fixIndent_of_tab hwidth hrest hneed htab.1 htab.2
      have hnone : ¬ Unfixable rule ind → ¬ has rule WS_INDENT_WITH_NON_TAB = true := fun hun h =>
        hun (unfixable_iff.mpr ⟨htab.1, .inr ⟨h, htab.2⟩⟩)
      refine ⟨tabsThenSpaces 0 spaces, hfix, ⟨fun hclean hun => ?_, fun hun => ?_⟩, fun hun => ?_⟩
      · exact absurd (hclean.indentWithNonTab (hun.2.resolve_left hneed).1) (Nat.not_lt.mpr hle)
      · exact ⟨fun _ n hn => absurd hn List.not_mem_nil, fun _ => rfl, fun h => absurd h (hnone (mt unfixable_iff.mp hun))⟩
      · exact tabsThenSpaces_not_needsFix hwidth fun h => absurd h (hnone (mt unfixable_iff.mp hun))
    · have hnil : has rule WS_TAB_IN_INDENT = true → ind.before = [] := fun h => by
        by_contra hne
        exact htab ⟨h, hne⟩
      refine ⟨ind, by rw [fixIndent_of_not hwidth hrest hneed hnil], ?_, fun _ => hneed⟩
      refine iff_of_true ⟨fun h n hn => ?_, hnil, fun h => ?_⟩ fun hun => ?_
      · by_contra hne
        exact hneed (.inl ⟨h, n, hn, Nat.pos_of_ne_zero hne⟩)
      · by_contra hle
        exact hneed (.inr ⟨h, .inr (Nat.not_lt.mp hle)⟩)
      · exact hun.2.elim hneed fun h => h.2 (hnil hun.1)

end GitCore.Whitespace
