import GitCore.Config.Parse
import Mathlib.Data.List.DropRight

/-!
# Checking and fixing the whitespace of a line

`ws_check` and `ws_fix_copy` of `ws.c`. Indices into the line start with -1 where the source does. The check does not
write to a stream.
-/

namespace GitCore.Whitespace

def WS_BLANK_AT_EOL : UInt32 := 0x40
def WS_SPACE_BEFORE_TAB : UInt32 := 0x80
def WS_INDENT_WITH_NON_TAB : UInt32 := 0x100
def WS_CR_AT_EOL : UInt32 := 0x200
def WS_TAB_IN_INDENT : UInt32 := 0x800
def WS_INCOMPLETE_LINE : UInt32 := 0x1000
def WS_TAB_WIDTH_MASK : UInt32 := 0x3f

def wsTabWidth (rule : UInt32) : Nat := (rule &&& WS_TAB_WIDTH_MASK).toNat

def has (rule flag : UInt32) : Bool := rule &&& flag ≠ 0

def space : UInt8 := 0x20
def tab : UInt8 := 0x09
def newline : UInt8 := 0x0a
def carriageReturn : UInt8 := 0x0d

/-- The line without its newline, and without a carriage return before it that is allowed. -/
def withoutEol (line : List UInt8) (rule : UInt32) : List UInt8 :=
  let line := if line.getLast? = some newline then line.dropLast else line
  if has rule WS_CR_AT_EOL ∧ line.getLast? = some carriageReturn then line.dropLast else line

/-- The loop over the indentation: `i`, `written` and the errors. -/
def checkIndent (rule : UInt32) : List UInt8 → Nat → Nat → UInt32 → Nat × Nat × UInt32
  | [], i, written, result => (i, written, result)
  | c :: line, i, written, result =>
    if c = space then checkIndent rule line (i + 1) written result
    else if c ≠ tab then (i, written, result)
    else
      checkIndent rule line (i + 1) (i + 1)
        (if has rule WS_SPACE_BEFORE_TAB ∧ written < i then result ||| WS_SPACE_BEFORE_TAB
        else if has rule WS_TAB_IN_INDENT then result ||| WS_TAB_IN_INDENT
        else result)

def wsCheck (line : List UInt8) (rule : UInt32) : UInt32 :=
  let body := withoutEol line rule
  let front := if has rule WS_BLANK_AT_EOL then body.rdropWhile Config.isspace else body
  let result : UInt32 := if front.length < body.length then WS_BLANK_AT_EOL else 0
  let result :=
    if line.getLast? ≠ some newline ∧ has rule WS_INCOMPLETE_LINE then result ||| WS_INCOMPLETE_LINE else result
  let (i, written, result) := checkIndent rule front 0 0 result
  if has rule WS_INDENT_WITH_NON_TAB ∧ wsTabWidth rule ≤ i - written then result ||| WS_INDENT_WITH_NON_TAB
  else result

/-- The first `len` bytes of the line, and what is to follow them. -/
structure Stripped where
  src : List UInt8
  addCrToTail : Bool
  addNlToTail : Bool
  fixed : Bool

def stripTrailing (src : List UInt8) (rule : UInt32) : Stripped :=
  let incomplete := has rule WS_INCOMPLETE_LINE ∧ src ≠ [] ∧ src.getLast? ≠ some newline
  let st : Stripped := ⟨src, false, incomplete, incomplete⟩
  if has rule WS_BLANK_AT_EOL then
    let st :=
      if st.src.getLast? = some newline then
        let st := { st with src := st.src.dropLast, addNlToTail := true }
        if st.src.getLast? = some carriageReturn then
          { st with src := st.src.dropLast, addCrToTail := has rule WS_CR_AT_EOL }
        else st
      else st
    if st.src.getLast?.any Config.isspace then { st with src := st.src.rdropWhile Config.isspace, fixed := true } else st
  else st

/-- The loop over the leading whitespace: the last tab, the last space, and whether spaces are to be fixed. -/
def scanIndent (rule : UInt32) : List UInt8 → Int → Int → Int → Bool → Int × Int × Bool
  | [], _, lastTab, lastSpace, need => (lastTab, lastSpace, need)
  | c :: src, i, lastTab, lastSpace, need =>
    if c = tab then
      scanIndent rule src (i + 1) i lastSpace (need || has rule WS_SPACE_BEFORE_TAB && decide (0 ≤ lastSpace))
    else if c = space then
      scanIndent rule src (i + 1) lastTab i
        (need || has rule WS_INDENT_WITH_NON_TAB && decide ((wsTabWidth rule : Int) ≤ i - lastTab))
    else (lastTab, lastSpace, need)

/-- The loop that strips spaces and turns them into tabs; the spaces that are left follow in the end. -/
def retab (width : Nat) : List UInt8 → Nat → List UInt8
  | [], consecutive => List.replicate consecutive space
  | c :: src, consecutive =>
    if c ≠ space then c :: retab width src 0
    else if consecutive + 1 = width then tab :: retab width src 0
    else retab width src (consecutive + 1)

def fillTab (width : Nat) : Nat → List UInt8 → List UInt8
  | 0, out => out
  | n + 1, out => if (out.length + 1) % width = 0 then out ++ [space] else fillTab width n (out ++ [space])

def expandTabs (width : Nat) : List UInt8 → List UInt8 → List UInt8
  | [], out => out
  | c :: src, out =>
    if c = tab then expandTabs width src (fillTab width width out) else expandTabs width src (out ++ [c])

def fixIndent (src : List UInt8) (rule : UInt32) : List UInt8 × Bool :=
  let (lastTab, lastSpace, need) := scanIndent rule src 0 (-1) (-1) false
  if need then
    let last :=
      if has rule WS_INDENT_WITH_NON_TAB then
        if lastTab < lastSpace then lastSpace + 1 else lastTab + 1
      else lastTab + 1
    (retab (wsTabWidth rule) (src.take last.toNat) 0 ++ src.drop last.toNat, true)
  else if has rule WS_TAB_IN_INDENT ∧ 0 ≤ lastTab then
    let last := lastTab + 1
    (expandTabs (wsTabWidth rule) (src.take last.toNat) [] ++ src.drop last.toNat, true)
  else (src, false)

def Stripped.tail (st : Stripped) : List UInt8 :=
  (if st.addCrToTail then [carriageReturn] else []) ++ if st.addNlToTail then [newline] else []

def wsFixCopy (dst src : List UInt8) (rule : UInt32) : List UInt8 × Bool :=
  let st := stripTrailing src rule
  let (out, fixed) := fixIndent st.src rule
  (dst ++ out ++ st.tail, st.fixed || fixed)

end GitCore.Whitespace

/-!
# Indents

An indent is the spaces before each of its tabs and the spaces behind the last one. The checker and the fixer read an
indent run by run.
-/

namespace GitCore.Whitespace

structure Indent where
  before : List Nat
  after : Nat

def tabRuns (ns : List Nat) : List UInt8 := ns.flatMap fun n => List.replicate n space ++ [tab]

def Indent.bytes (ind : Indent) : List UInt8 := tabRuns ind.before ++ List.replicate ind.after space

def indentFrom : List UInt8 → Nat → Indent
  | [], n => ⟨[], n⟩
  | c :: line, n =>
    if c = space then indentFrom line (n + 1)
    else if c = tab then
      let ind := indentFrom line 0
      ⟨n :: ind.before, ind.after⟩
    else ⟨[], n⟩

def indentOf (line : List UInt8) : Indent := indentFrom line 0

def EndsIndent (rest : List UInt8) : Prop := ∀ c ∈ rest.head?, c ≠ space ∧ c ≠ tab

variable {rule : UInt32} {ind : Indent} {rest line : List UInt8} {width n : Nat} {ns : List Nat}

lemma tabRuns_cons (n : Nat) (ns : List Nat) : tabRuns (n :: ns) = List.replicate n space ++ tab :: tabRuns ns := by
  rw [tabRuns, List.flatMap_cons, List.append_assoc]
  rfl

lemma exists_indentFrom (line : List UInt8) (n : Nat) :
    ∃ rest, List.replicate n space ++ line = (indentFrom line n).bytes ++ rest ∧ EndsIndent rest := by
  induction line generalizing n with
  | nil => exact ⟨[], rfl, fun c hc => by cases hc⟩
  | cons c line ih =>
    rw [indentFrom]
    split_ifs with hspace htab
    · obtain ⟨rest, hrest, hends⟩ := ih (n + 1)
      refine ⟨rest, ?_, hends⟩
      rw [← hrest, hspace, List.replicate_succ', List.append_assoc]
      rfl
    · obtain ⟨rest, hrest, hends⟩ := ih 0
      refine ⟨rest, ?_, hends⟩
      rw [List.replicate_zero, List.nil_append] at hrest
      rw [htab, Indent.bytes, tabRuns_cons, List.append_assoc, List.append_assoc, List.cons_append,
        ← List.append_assoc (tabRuns _), ← Indent.bytes, ← hrest]
    · refine ⟨c :: line, rfl, fun d hd => ?_⟩
      rw [← Option.some.inj hd]
      exact ⟨hspace, htab⟩

lemma exists_indentOf (line : List UInt8) : ∃ rest, line = (indentOf line).bytes ++ rest ∧ EndsIndent rest :=
  exists_indentFrom line 0

structure Clean (rule : UInt32) (ind : Indent) : Prop where
  spaceBeforeTab : has rule WS_SPACE_BEFORE_TAB = true → ∀ n ∈ ind.before, n = 0
  tabInIndent : has rule WS_TAB_IN_INDENT = true → ind.before = []
  indentWithNonTab : has rule WS_INDENT_WITH_NON_TAB = true → ind.after < wsTabWidth rule

lemma checkIndent_spaces (n : Nat) (line : List UInt8) (i written : Nat) (result : UInt32) :
    checkIndent rule (List.replicate n space ++ line) i written result = checkIndent rule line (i + n) written result := by
  induction n generalizing i with
  | zero => rfl
  | succ n ih =>
    rw [List.replicate_succ, List.cons_append, checkIndent, if_pos rfl, ih, Nat.add_right_comm]
    rfl

lemma or_eq_zero (a b : UInt32) : a ||| b = 0 ↔ a = 0 ∧ b = 0 := by
  rw [← UInt32.toBitVec_inj, ← UInt32.toBitVec_inj, ← UInt32.toBitVec_inj]
  exact BitVec.or_eq_zero_iff

lemma checkIndent_run (n : Nat) (line : List UInt8) (written : Nat) (result : UInt32) :
    checkIndent rule (List.replicate n space ++ tab :: line) written written result =
      checkIndent rule line (written + n + 1) (written + n + 1)
        (if has rule WS_SPACE_BEFORE_TAB ∧ 0 < n then result ||| WS_SPACE_BEFORE_TAB
        else if has rule WS_TAB_IN_INDENT then result ||| WS_TAB_IN_INDENT
        else result) := by
  rw [checkIndent_spaces, checkIndent, if_neg (by decide), if_neg (by decide),
    if_congr (and_congr_right fun _ => show written < written + n ↔ 0 < n by omega) rfl rfl]

lemma checkIndent_tabRuns (ns : List Nat) (line : List UInt8) (i : Nat) (result : UInt32) :
    ∃ result', checkIndent rule (tabRuns ns ++ line) i i result =
        checkIndent rule line (i + (tabRuns ns).length) (i + (tabRuns ns).length) result' ∧
      (result' = 0 ↔ result = 0 ∧ (has rule WS_SPACE_BEFORE_TAB = true → ∀ n ∈ ns, n = 0) ∧
        (has rule WS_TAB_IN_INDENT = true → ns = [])) := by
  induction ns generalizing i result with
  | nil => exact ⟨result, rfl, by simp⟩
  | cons n ns ih =>
    rw [tabRuns_cons, List.append_assoc, List.cons_append, checkIndent_run]
    obtain ⟨result', hcheck, hiff⟩ := ih (i + n + 1)
      (if has rule WS_SPACE_BEFORE_TAB ∧ 0 < n then result ||| WS_SPACE_BEFORE_TAB
        else if has rule WS_TAB_IN_INDENT then result ||| WS_TAB_IN_INDENT
        else result)
    have hlength : i + (List.replicate n space ++ tab :: tabRuns ns).length = i + n + 1 + (tabRuns ns).length := by
      rw [List.length_append, List.length_replicate, List.length_cons]
      omega
    refine ⟨result', by rw [hcheck, hlength], hiff.trans ?_⟩
    have hne : WS_SPACE_BEFORE_TAB ≠ 0 := by decide
    have hne' : WS_TAB_IN_INDENT ≠ 0 := by decide
    split_ifs with hspace htab
    · rw [or_eq_zero]
      refine iff_of_false (fun hall => hne hall.1.2) fun hall => ?_
      have hzero := hall.2.1 hspace.1 n List.mem_cons_self
      omega
    · rw [or_eq_zero]
      exact iff_of_false (fun hall => hne' hall.1.2) fun hall => (hall.2.2 htab).elim
    · have hzero : has rule WS_SPACE_BEFORE_TAB = true → n = 0 := fun hhas => by
        by_contra hn
        exact hspace ⟨hhas, Nat.pos_of_ne_zero hn⟩
      refine and_congr_right fun _ => ⟨fun hall => ⟨fun hhas => ?_, fun hhas => absurd hhas htab⟩,
        fun hall => ⟨fun hhas => ?_, fun hhas => absurd hhas htab⟩⟩
      · exact List.forall_mem_cons.mpr ⟨hzero hhas, hall.1 hhas⟩
      · exact (List.forall_mem_cons.mp (hall.1 hhas)).2

lemma checkIndent_bytes (ind : Indent) (hrest : EndsIndent rest) (result : UInt32) :
    ∃ result', checkIndent rule (ind.bytes ++ rest) 0 0 result =
        ((tabRuns ind.before).length + ind.after, (tabRuns ind.before).length, result') ∧
      (result' = 0 ↔ result = 0 ∧ (has rule WS_SPACE_BEFORE_TAB = true → ∀ n ∈ ind.before, n = 0) ∧
        (has rule WS_TAB_IN_INDENT = true → ind.before = [])) := by
  obtain ⟨result', hcheck, hiff⟩ := @checkIndent_tabRuns rule ind.before
    (List.replicate ind.after space ++ rest) 0 result
  refine ⟨result', ?_, hiff⟩
  rw [Indent.bytes, List.append_assoc, hcheck, checkIndent_spaces, Nat.zero_add]
  cases rest with
  | nil => rfl
  | cons c rest =>
    obtain ⟨hspace, htab⟩ := hrest c rfl
    rw [checkIndent, if_neg hspace, if_pos htab]

def NeedsFix (rule : UInt32) (ind : Indent) : Prop :=
  (has rule WS_SPACE_BEFORE_TAB = true ∧ ∃ n ∈ ind.before, 0 < n) ∨
    has rule WS_INDENT_WITH_NON_TAB = true ∧ ((∃ n ∈ ind.before, wsTabWidth rule ≤ n) ∨ wsTabWidth rule ≤ ind.after)

lemma scanIndent_spaces (n : Nat) (line : List UInt8) (i lastTab lastSpace : Int)
    (need : Bool) (hle : lastTab < i) :
    scanIndent rule (List.replicate n space ++ line) i lastTab lastSpace need =
      scanIndent rule line (i + n) lastTab (if n = 0 then lastSpace else i + n - 1)
        (need || has rule WS_INDENT_WITH_NON_TAB && decide (0 < n ∧ (wsTabWidth rule : Int) ≤ i + n - 1 - lastTab)) := by
  induction n generalizing i lastSpace need with
  | zero => simp
  | succ n ih =>
    rw [List.replicate_succ, List.cons_append, scanIndent, if_neg (by decide), if_pos rfl, ih _ _ _ (by omega)]
    have hi : i + 1 + (n : Int) = i + ((n + 1 : Nat) : Int) := by push_cast; ring
    have hlast : (if n = 0 then i else i + ((n + 1 : Nat) : Int) - 1) = i + ((n + 1 : Nat) : Int) - 1 := by
      split_ifs with hn <;> omega
    rw [hi, hlast, if_neg (Nat.succ_ne_zero n), Bool.or_assoc, ← Bool.and_or_distrib_left]
    congr 2
    rw [Bool.eq_iff_iff]
    simp only [Bool.or_eq_true, Bool.and_eq_true, decide_eq_true_eq]
    refine and_congr_right fun _ => ?_
    omega

lemma scanIndent_run (hwidth : 0 < wsTabWidth rule) (n : Nat) (line : List UInt8) (i lastSpace : Int) (need : Bool) :
    scanIndent rule (List.replicate n space ++ tab :: line) i (i - 1) lastSpace need =
      scanIndent rule line (i + n + 1) (i + n + 1 - 1) (if n = 0 then lastSpace else i + n - 1)
        (need || (has rule WS_INDENT_WITH_NON_TAB && decide (wsTabWidth rule ≤ n)) ||
          (has rule WS_SPACE_BEFORE_TAB && decide (0 ≤ if n = 0 then lastSpace else i + n - 1))) := by
  rw [scanIndent_spaces n _ _ _ _ _ (by omega), scanIndent, if_pos rfl, add_sub_cancel_right]
  congr 3
  rw [Bool.eq_iff_iff]
  simp only [Bool.and_eq_true, decide_eq_true_eq]
  refine and_congr_right fun _ => ?_
  omega

lemma scanIndent_tabRuns (hwidth : 0 < wsTabWidth rule) (ns : List Nat) (line : List UInt8) (i : Nat) (lastSpace : Int)
    (need : Bool) (hlast : lastSpace < i) :
    ∃ lastSpace' need', scanIndent rule (tabRuns ns ++ line) i (i - 1) lastSpace need =
        scanIndent rule line ((i + (tabRuns ns).length : Nat) : Int) ((i + (tabRuns ns).length : Nat) - 1) lastSpace' need' ∧
      lastSpace' < ((i + (tabRuns ns).length : Nat) : Int) ∧ (ns = [] → lastSpace' = lastSpace) ∧
      (ns ≠ [] → lastSpace' < ((i + (tabRuns ns).length : Nat) : Int) - 1) ∧
      (need' = true ↔ need = true ∨
        (has rule WS_SPACE_BEFORE_TAB = true ∧ (ns ≠ [] ∧ 0 ≤ lastSpace ∨ ∃ n ∈ ns, 0 < n)) ∨
        has rule WS_INDENT_WITH_NON_TAB = true ∧ ∃ n ∈ ns, wsTabWidth rule ≤ n) := by
  induction ns generalizing i lastSpace need with
  | nil => exact ⟨lastSpace, need, by simp [tabRuns], by simpa [tabRuns] using hlast, by simp⟩
  | cons n ns ih =>
    have hnext : (i : Int) + n + 1 = ((i + n + 1 : Nat) : Int) := by push_cast; rfl
    have hlength : i + (List.replicate n space ++ tab :: tabRuns ns).length = i + n + 1 + (tabRuns ns).length := by
      rw [List.length_append, List.length_replicate, List.length_cons]
      omega
    have hlast' : (if n = 0 then lastSpace else (i : Int) + n - 1) < ((i + n + 1 : Nat) : Int) - 1 := by
      split_ifs <;> omega
    have hseen : (0 ≤ if n = 0 then lastSpace else (i : Int) + n - 1) ↔ 0 ≤ lastSpace ∧ n = 0 ∨ 0 < n := by
      split_ifs <;> omega
    obtain ⟨lastSpace', need', hscan, hlt, hnil, hcons, hneed⟩ := ih (i + n + 1)
      (if n = 0 then lastSpace else i + n - 1)
      (need || (has rule WS_INDENT_WITH_NON_TAB && decide (wsTabWidth rule ≤ n)) ||
        (has rule WS_SPACE_BEFORE_TAB && decide (0 ≤ if n = 0 then lastSpace else (i : Int) + n - 1)))
      (by omega)
    rw [tabRuns_cons, List.append_assoc, List.cons_append, scanIndent_run hwidth, hnext, hlength]
    refine ⟨lastSpace', need', hscan, hlt, fun h => (List.cons_ne_nil n ns h).elim, fun _ => ?_, hneed.trans ?_⟩
    · by_cases hns : ns = []
      · rw [hnil hns, hns]
        exact hlast'.trans_le (by simp [tabRuns])
      · exact hcons hns
    · simp only [hseen, Bool.or_eq_true, Bool.and_eq_true, decide_eq_true_eq, List.exists_mem_cons_iff]
      constructor
      · rintro (((h | ⟨hi, h⟩) | ⟨hs, ⟨h, -⟩ | h⟩) | ⟨hs, ⟨-, ⟨h, -⟩ | h⟩ | h⟩ | ⟨hi, h⟩)
        · exact .inl h
        · exact .inr (.inr ⟨hi, .inl h⟩)
        · exact .inr (.inl ⟨hs, .inl ⟨List.cons_ne_nil n ns, h⟩⟩)
        · exact .inr (.inl ⟨hs, .inr (.inl h)⟩)
        · exact .inr (.inl ⟨hs, .inl ⟨List.cons_ne_nil n ns, h⟩⟩)
        · exact .inr (.inl ⟨hs, .inr (.inl h)⟩)
        · exact .inr (.inl ⟨hs, .inr (.inr h)⟩)
        · exact .inr (.inr ⟨hi, .inr h⟩)
      · rintro (h | ⟨hs, ⟨-, h⟩ | h | h⟩ | ⟨hi, h | h⟩)
        · exact .inl (.inl (.inl h))
        · refine .inl (.inr ⟨hs, ?_⟩)
          omega
        · exact .inl (.inr ⟨hs, .inr h⟩)
        · exact .inr (.inl ⟨hs, .inr h⟩)
        · exact .inl (.inl (.inr ⟨hi, h⟩))
        · exact .inr (.inr ⟨hi, h⟩)

lemma scanIndent_bytes (hwidth : 0 < wsTabWidth rule) (ind : Indent) (hrest : EndsIndent rest) :
    ∃ lastSpace need, scanIndent rule (ind.bytes ++ rest) 0 (-1) (-1) false =
        (((tabRuns ind.before).length : Int) - 1, lastSpace, need) ∧
      (0 < ind.after → lastSpace + 1 = (ind.bytes.length : Int)) ∧
      (ind.after = 0 → lastSpace ≤ ((tabRuns ind.before).length : Int) - 1) ∧
      (need = true ↔ NeedsFix rule ind) := by
  obtain ⟨lastSpace, need, hscan, hlt, hnil, hcons, hneed⟩ := scanIndent_tabRuns hwidth ind.before
    (List.replicate ind.after space ++ rest) 0 (-1) false (by decide)
  rw [Nat.zero_add] at hscan hlt hcons
  have hend : ∀ i lastTab lastSpace need, scanIndent rule rest i lastTab lastSpace need = (lastTab, lastSpace, need) := by
    intro i lastTab lastSpace need
    cases rest with
    | nil => rfl
    | cons c rest =>
      obtain ⟨hspace, htab⟩ := hrest c rfl
      rw [scanIndent, if_neg htab, if_neg hspace]
  refine ⟨if ind.after = 0 then lastSpace else ((tabRuns ind.before).length : Int) + ind.after - 1,
    need || has rule WS_INDENT_WITH_NON_TAB && decide (0 < ind.after ∧ (wsTabWidth rule : Int) ≤ ind.after), ?_, ?_, ?_, ?_⟩
  · have hshift : ((tabRuns ind.before).length : Int) + ind.after - 1 - ((tabRuns ind.before).length - 1) = ind.after := by
      ring
    rw [Indent.bytes, List.append_assoc]
    refine hscan.trans ?_
    rw [scanIndent_spaces _ _ _ _ _ _ (by omega), hend, hshift]
  · intro hafter
    rw [if_neg hafter.ne', Indent.bytes, List.length_append, List.length_replicate]
    push_cast
    ring
  · intro hafter
    rw [if_pos hafter]
    by_cases hns : ind.before = []
    · rw [hnil hns, hns]
      decide
    · exact (hcons hns).le
  · rw [Bool.or_eq_true, Bool.and_eq_true, decide_eq_true_eq, hneed, NeedsFix]
    constructor
    · rintro ((h | ⟨hs, ⟨-, h⟩ | h⟩ | ⟨hi, h⟩) | ⟨hi, -, h⟩)
      · cases h
      · omega
      · exact .inl ⟨hs, h⟩
      · exact .inr ⟨hi, .inl h⟩
      · exact .inr ⟨hi, .inr (by omega)⟩
    · rintro (⟨hs, h⟩ | ⟨hi, h | h⟩)
      · exact .inl (.inr (.inl ⟨hs, .inr h⟩))
      · exact .inl (.inr (.inr ⟨hi, h⟩))
      · exact .inr ⟨hi, by omega, by omega⟩

end GitCore.Whitespace
