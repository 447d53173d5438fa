import GitCore.Refs.Transaction
import Mathlib.Data.List.GetD

/-!
# Short names of refs

`refs_shorten_unambiguous_ref` and `expand_ref` of `refs.c` over the rules of `ref_rev_parse_rules`.
-/

namespace GitCore.Refs

def percent : UInt8 := 0x25

/-- `%.*s` -/
def placeholder : Strbuf := [0x25, 0x2e, 0x2a, 0x73]

def refRevParseRules : List Strbuf :=
  [text "%.*s", text "refs/%.*s", text "refs/tags/%.*s", text "refs/heads/%.*s", text "refs/remotes/%.*s",
    text "refs/remotes/%.*s/HEAD"]

def numRevParseRules : Nat := refRevParseRules.length

def addRule : Strbuf → Strbuf → Strbuf
  | 0x25 :: 0x2e :: 0x2a :: 0x73 :: rule, name => name ++ addRule rule name
  | c :: rule, name => c :: addRule rule name
  | [], _ => []

/-- `match_parse_rule`, with the name cut at its length; a rule without a percent sign is a bug. -/
def matchParseRule : RefName → Strbuf → Option (Option Strbuf)
  | _, [] => none
  | refname, r :: rule =>
    if r = percent then
      if placeholder.isPrefixOf (r :: rule) then
        -- `strip_suffix`
        let suffix := (r :: rule).drop placeholder.length
        some (if suffix.isSuffixOf refname then some (refname.take (refname.length - suffix.length)) else none)
      else some none
    else
      match refname with
      | [] => some none
      | c :: refname => if c = r then matchParseRule refname rule else some none

/-- What `refs_resolve_ref_unsafe` tells with `RESOLVE_REF_READING`: the ref, its id and the flags. -/
structure Resolution where
  ref : Option RefName
  oid : ObjectId
  isSymref : Bool
  isBroken : Bool

/-- A ref store, with `refs_resolve_ref_unsafe` as its only function. -/
structure RefStore where
  resolveRefUnsafe : RefName → Resolution

def RefStore.refExists (refs : RefStore) (refname : RefName) : Bool := (refs.resolveRefUnsafe refname).ref.isSome

/-- The short name does not resolve with any of the first rules but the matched one. -/
def rulesFail (refs : RefStore) (shortName : Strbuf) (matched rulesToFail : Nat) : Bool :=
  (List.range rulesToFail).all fun j =>
    j == matched || !refs.refExists (addRule (refRevParseRules.getD j []) shortName)

/-- The loop of `refs_shorten_unambiguous_ref` from a rule on. -/
def shortenFrom (refs : RefStore) (refname : RefName) (strict : Bool) : Nat → Option Strbuf
  | 0 => some refname
  | i + 1 => do
    match ← matchParseRule refname (refRevParseRules.getD (i + 1) []) with
    | none => shortenFrom refs refname strict i
    | some shortName =>
      if rulesFail refs shortName (i + 1) (if strict then numRevParseRules else i + 1) then return shortName
      else shortenFrom refs refname strict i

def refsShortenUnambiguousRef (refs : RefStore) (refname : RefName) (strict : Bool) : Option Strbuf :=
  shortenFrom refs refname strict (numRevParseRules - 1)

structure Expansion where
  refsFound : Nat
  ref : Option RefName
  oid : ObjectId
  warnings : List Strbuf
  deriving DecidableEq

def warnings (fullref : RefName) (r : Resolution) : List Strbuf :=
  if r.isSymref ∧ fullref ≠ text "HEAD" then [text "ignoring dangling symref " ++ fullref]
  else if r.isBroken ∧ 0x2f ∈ fullref then [text "ignoring broken ref " ++ fullref]
  else []

def expandLoop (refs : RefStore) (warnAmbiguousRefs : Bool) (str : Strbuf) : List Strbuf → Expansion → Expansion
  | [], e => e
  | rule :: rules, e =>
    let fullref := addRule rule str
    let r := refs.resolveRefUnsafe fullref
    let oid := if e.refsFound = 0 then r.oid else e.oid
    match r.ref with
    | some ref =>
      let e := { e with
        refsFound := e.refsFound + 1
        ref := if e.refsFound = 0 then some ref else e.ref
        oid := oid }
      if warnAmbiguousRefs then expandLoop refs warnAmbiguousRefs str rules e else e
    | none =>
      expandLoop refs warnAmbiguousRefs str rules { e with oid := oid, warnings := e.warnings ++ warnings fullref r }

/-- `expand_ref`, with the id that was in `*oid`. -/
def expandRef (refs : RefStore) (warnAmbiguousRefs : Bool) (str : Strbuf) (len : Nat) (oid : ObjectId) : Expansion :=
  expandLoop refs warnAmbiguousRefs (str.take len) refRevParseRules
    { refsFound := 0, ref := none, oid := oid, warnings := [] }

variable {front back name : Strbuf} {refname : RefName}

lemma addRule_rule (hfront : percent ∉ front) (hback : percent ∉ back) :
    addRule (front ++ placeholder ++ back) name = front ++ name ++ back := by
  have hplain : ∀ l : Strbuf, percent ∉ l → addRule l name = l := by
    intro l hl
    induction l with
    | nil => rfl
    | cons c l ih =>
      obtain ⟨hc, hl⟩ := not_or.mp (List.mem_cons.not.mp hl)
      rw [addRule, ih hl]
      rintro - rfl -
      exact hc rfl
  induction front with
  | nil =>
    rw [List.nil_append, placeholder]
    change name ++ addRule back name = _
    rw [hplain back hback]
    rfl
  | cons c front ih =>
    obtain ⟨hc, hfront⟩ := not_or.mp (List.mem_cons.not.mp hfront)
    rw [List.cons_append, List.cons_append, addRule, ih hfront]
    · rfl
    · rintro - rfl -
      exact hc rfl

lemma matchParseRule_rule (hfront : percent ∉ front) :
    ∃ found, matchParseRule refname (front ++ placeholder ++ back) = some found ∧
      ∀ name, found = some name → refname = front ++ name ++ back := by
  induction front generalizing refname with
  | nil =>
    have hmatch : matchParseRule refname ([] ++ placeholder ++ back) =
        some (if back.isSuffixOf refname then some (refname.take (refname.length - back.length)) else none) := by
      rw [matchParseRule.eq_def]
      rfl
    refine ⟨_, hmatch, fun name hname => ?_⟩
    split_ifs at hname with hsuffix
    obtain ⟨short, rfl⟩ := List.isSuffixOf_iff_suffix.mp hsuffix
    rw [List.length_append, Nat.add_sub_cancel, List.take_left] at hname
    rw [← Option.some.inj hname, List.nil_append]
  | cons r front ih =>
    obtain ⟨hr, hfront⟩ := not_or.mp (List.mem_cons.not.mp hfront)
    rw [List.cons_append, List.cons_append, matchParseRule.eq_def]
    dsimp only
    rw [if_neg (Ne.symm hr)]
    cases refname with
    | nil => exact ⟨none, rfl, fun name hname => by cases hname⟩
    | cons c refname =>
      dsimp only
      split_ifs with hc
      · obtain ⟨found, hmatch, hfound⟩ := ih hfront
        refine ⟨found, hmatch, fun name hname => ?_⟩
        rw [hfound name hname, hc]
        rfl
      · exact ⟨none, rfl, fun name hname => by cases hname⟩

lemma exists_rule_parts : ∀ rule ∈ refRevParseRules, ∃ front back, percent ∉ front ∧ percent ∉ back ∧
    rule = front ++ placeholder ++ back := by
  intro rule hrule
  simp only [refRevParseRules, List.mem_cons, List.not_mem_nil, or_false] at hrule
  obtain rfl | rfl | rfl | rfl | rfl | rfl := hrule
  · exact ⟨[], [], by decide, by decide, by decide⟩
  · exact ⟨text "refs/", [], by decide, by decide, by decide⟩
  · exact ⟨text "refs/tags/", [], by decide, by decide, by decide⟩
  · exact ⟨text "refs/heads/", [], by decide, by decide, by decide⟩
  · exact ⟨text "refs/remotes/", [], by decide, by decide, by decide⟩
  · exact ⟨text "refs/remotes/", text "/HEAD", by decide, by decide, by decide⟩

lemma matchParseRule_spec {rule : Strbuf} (hrule : rule ∈ refRevParseRules) :
    ∃ found, matchParseRule refname rule = some found ∧ ∀ name, found = some name → addRule rule name = refname := by
  obtain ⟨front, back, hfront, hback, rfl⟩ := exists_rule_parts rule hrule
  obtain ⟨found, hmatch, hfound⟩ := @matchParseRule_rule _ back refname hfront
  refine ⟨found, hmatch, fun name hname => ?_⟩
  rw [addRule_rule hfront hback, hfound name hname]

/-- A rule leads from the short name to the ref, and those of some first rules that are not it do not resolve. -/
structure ShortBy (refs : RefStore) (refname : RefName) (strict : Bool) (name : Strbuf) (i : Nat) : Prop where
  lt : i < numRevParseRules
  eq : addRule (refRevParseRules.getD i []) name = refname
  fail : ∀ j < if strict then numRevParseRules else i, j ≠ i →
    (refs.resolveRefUnsafe (addRule (refRevParseRules.getD j []) name)).ref = none

variable {refs : RefStore} {strict : Bool}

lemma rulesFail_iff {matched rulesToFail : Nat} :
    rulesFail refs name matched rulesToFail = true ↔ ∀ j < rulesToFail, j ≠ matched →
      (refs.resolveRefUnsafe (addRule (refRevParseRules.getD j []) name)).ref = none := by
  simp only [rulesFail, List.all_eq_true, List.mem_range, Bool.or_eq_true, beq_iff_eq, Bool.not_eq_true',
    RefStore.refExists, Option.isSome_eq_false_iff, Option.isNone_iff_eq_none]
  exact forall_congr' fun j => ⟨fun h hj hne => (h hj).resolve_left hne, fun h hj => or_iff_not_imp_left.mpr (h hj)⟩

lemma shortenFrom_spec (i : Nat) (hi : i < numRevParseRules) :
    ∃ name, shortenFrom refs refname strict i = some name ∧
      (name = refname ∨ ∃ j, ShortBy refs refname strict name j) := by
  induction i with
  | zero => exact ⟨refname, rfl, .inl rfl⟩
  | succ i ih =>
    have hmem : refRevParseRules.getD (i + 1) [] ∈ refRevParseRules := by
      rw [List.getD_eq_getElem _ _ hi]
      exact List.getElem_mem hi
    obtain ⟨found, hmatch, hfound⟩ := @matchParseRule_spec refname _ hmem
    rw [shortenFrom, hmatch]
    dsimp only [Option.bind_eq_bind, Option.bind_some]
    cases found with
    | none => exact ih (Nat.lt_of_succ_lt hi)
    | some name =>
      dsimp only
      by_cases hfail : rulesFail refs name (i + 1) (if strict then numRevParseRules else i + 1) = true
      · rw [if_pos hfail]
        exact ⟨name, rfl, .inr ⟨i + 1, hi, hfound name rfl, rulesFail_iff.mp hfail⟩⟩
      · rw [if_neg hfail]
        exact ih (Nat.lt_of_succ_lt hi)

variable {warnAmbiguousRefs : Bool} {str : Strbuf} {rules : List Strbuf} {e : Expansion}

lemma expandLoop_of_fail (h : ∀ rule ∈ rules, (refs.resolveRefUnsafe (addRule rule str)).ref = none) :
    ∃ oid warnings, (e.refsFound ≠ 0 → oid = e.oid) ∧ ∀ more,
      expandLoop refs warnAmbiguousRefs str (rules ++ more) e =
        expandLoop refs warnAmbiguousRefs str more { e with oid := oid, warnings := warnings } := by
  induction rules generalizing e with
  | nil => exact ⟨e.oid, e.warnings, fun _ => rfl, fun _ => rfl⟩
  | cons rule rules ih =>
    obtain ⟨hrule, hrules⟩ := List.forall_mem_cons.mp h
    obtain ⟨oid, warnings, hoid, hrest⟩ := ih (e := { e with
      oid := if e.refsFound = 0 then (refs.resolveRefUnsafe (addRule rule str)).oid else e.oid
      warnings := e.warnings ++ Refs.warnings (addRule rule str) (refs.resolveRefUnsafe (addRule rule str)) }) hrules
    refine ⟨oid, warnings, fun hfound => (hoid hfound).trans (if_neg hfound), fun more => ?_⟩
    rw [List.cons_append, expandLoop]
    dsimp only
    rw [hrule]
    exact hrest more

lemma expandLoop_found (hfound : e.refsFound ≠ 0) :
    (expandLoop refs warnAmbiguousRefs str rules e).ref = e.ref ∧
      (expandLoop refs warnAmbiguousRefs str rules e).oid = e.oid ∧
      e.refsFound ≤ (expandLoop refs warnAmbiguousRefs str rules e).refsFound := by
  induction rules generalizing e with
  | nil => exact ⟨rfl, rfl, le_refl _⟩
  | cons rule rules ih =>
    rw [expandLoop]
    dsimp only
    simp only [if_neg hfound]
    cases (refs.resolveRefUnsafe (addRule rule str)).ref with
    | none =>
      obtain ⟨href, hoid, hle⟩ := @ih { e with
        oid := e.oid
        warnings := e.warnings ++ Refs.warnings (addRule rule str) (refs.resolveRefUnsafe (addRule rule str)) } hfound
      exact ⟨href, hoid, hle⟩
    | some ref =>
      dsimp only
      split_ifs
      · obtain ⟨href, hoid, hle⟩ := @ih { e with refsFound := e.refsFound + 1, ref := e.ref, oid := e.oid }
          (Nat.succ_ne_zero _)
        exact ⟨href, hoid, (Nat.le_succ _).trans hle⟩
      · exact ⟨rfl, rfl, Nat.le_succ _⟩

lemma expandRef_of_shortBy {i : Nat} (h : ShortBy refs refname strict name i)
    (hexists : (refs.resolveRefUnsafe refname).ref = some refname) (oid : ObjectId) :
    (expandRef refs warnAmbiguousRefs name name.length oid).ref = some refname ∧
      (expandRef refs warnAmbiguousRefs name name.length oid).oid = (refs.resolveRefUnsafe refname).oid ∧
      (strict = true → (expandRef refs warnAmbiguousRefs name name.length oid).refsFound = 1) := by
  have hi : i < refRevParseRules.length := h.lt
  have hget : ∀ j (hj : j < refRevParseRules.length), refRevParseRules[j] = refRevParseRules.getD j [] :=
    fun j hj => (List.getD_eq_getElem _ _ hj).symm
  have hsplit : refRevParseRules =
      refRevParseRules.take i ++ (refRevParseRules[i] :: refRevParseRules.drop (i + 1)) := by
    rw [← List.drop_eq_getElem_cons hi, List.take_append_drop]
  have hbefore : ∀ rule ∈ refRevParseRules.take i, (refs.resolveRefUnsafe (addRule rule name)).ref = none := by
    intro rule hrule
    obtain ⟨j, hj, rfl⟩ := List.mem_take_iff_getElem.mp hrule
    rw [hget j (by omega)]
    exact h.fail j (by split_ifs <;> [(rw [numRevParseRules]; omega); omega]) (by omega)
  obtain ⟨oid', warnings', -, hskip⟩ := @expandLoop_of_fail _ warnAmbiguousRefs _ _
    ⟨0, none, oid, []⟩ hbefore
  have hexpand : expandRef refs warnAmbiguousRefs name name.length oid =
      if warnAmbiguousRefs then
        expandLoop refs warnAmbiguousRefs name (refRevParseRules.drop (i + 1))
          ⟨1, some refname, (refs.resolveRefUnsafe refname).oid, warnings'⟩
      else ⟨1, some refname, (refs.resolveRefUnsafe refname).oid, warnings'⟩ := by
    rw [expandRef, List.take_length]
    conv_lhs => rw [hsplit]
    rw [hskip, expandLoop]
    dsimp only
    rw [hget i hi, h.eq, hexists]
    rfl
  rw [hexpand]
  split_ifs
  · obtain ⟨href, hoid, -⟩ := @expandLoop_found refs warnAmbiguousRefs name (refRevParseRules.drop (i + 1))
      ⟨1, some refname, (refs.resolveRefUnsafe refname).oid, warnings'⟩ Nat.one_ne_zero
    refine ⟨href, hoid, fun hstrict => ?_⟩
    have hafter : ∀ rule ∈ refRevParseRules.drop (i + 1), (refs.resolveRefUnsafe (addRule rule name)).ref = none := by
      intro rule hrule
      obtain ⟨j, hj, rfl⟩ := List.mem_drop_iff_getElem.mp hrule
      rw [hget _ (by omega)]
      exact h.fail _ (by rw [if_pos hstrict, numRevParseRules]; omega) (by omega)
    obtain ⟨_, _, -, hrest⟩ := @expandLoop_of_fail _ warnAmbiguousRefs _ _
      ⟨1, some refname, (refs.resolveRefUnsafe refname).oid, warnings'⟩ hafter
    have hend := hrest []
    rw [List.append_nil] at hend
    rw [hend]
    rfl
  · exact ⟨rfl, rfl, fun _ => rfl⟩

lemma expandRef_self (hexists : (refs.resolveRefUnsafe refname).ref = some refname) (oid : ObjectId) :
    (expandRef refs warnAmbiguousRefs refname refname.length oid).ref = some refname ∧
      (expandRef refs warnAmbiguousRefs refname refname.length oid).oid = (refs.resolveRefUnsafe refname).oid := by
  have hself : ShortBy refs refname false refname 0 := by
    refine ⟨by decide, ?_, fun j hj => absurd hj (Nat.not_lt_zero j)⟩
    have hfirst : refRevParseRules.getD 0 [] = [] ++ placeholder ++ [] := by decide
    rw [hfirst, addRule_rule (by decide) (by decide), List.nil_append, List.append_nil]
  obtain ⟨href, hoid, -⟩ := @expandRef_of_shortBy _ _ _ _ warnAmbiguousRefs _ hself hexists oid
  exact ⟨href, hoid⟩

/-- A short name expands to the ref that it was made for, and to no other one if it was made strictly. -/
theorem expandRef_refsShortenUnambiguousRef (refs : RefStore) (strict : Bool) (oid : ObjectId)
    (hsymref : ∀ name ref, (refs.resolveRefUnsafe name).ref = some ref → ref = name)
    (refname : RefName) (hexists : refs.refExists refname = true) :
    ∃ name, refsShortenUnambiguousRef refs refname strict = some name ∧
      (∀ warnAmbiguousRefs, (expandRef refs warnAmbiguousRefs name name.length oid).ref = some refname ∧
        (expandRef refs warnAmbiguousRefs name name.length oid).oid = (refs.resolveRefUnsafe refname).oid) ∧
      (strict = true → name ≠ refname → (expandRef refs true name name.length oid).refsFound = 1) := by
  obtain ⟨ref, href⟩ := Option.isSome_iff_exists.mp hexists
  have hself : (refs.resolveRefUnsafe refname).ref = some refname := by rw [href, hsymref refname ref href]
  obtain ⟨name, hname, rfl | ⟨i, hshort⟩⟩ :=
    @shortenFrom_spec refname refs strict (numRevParseRules - 1) (by decide)
  · exact ⟨name, hname, fun warnAmbiguousRefs => expandRef_self hself oid, fun _ hne => absurd rfl hne⟩
  · refine ⟨name, hname, fun warnAmbiguousRefs => ?_, fun hstrict _ => ?_⟩
    · obtain ⟨hfound, hoid, -⟩ := @expandRef_of_shortBy _ _ _ _ warnAmbiguousRefs _ hshort hself oid
      exact ⟨hfound, hoid⟩
    · exact (@expandRef_of_shortBy _ _ _ _ true _ hshort hself oid).2.2 hstrict

def listStore (refnames : List RefName) : RefStore where
  resolveRefUnsafe := fun refname =>
    { ref := if refname ∈ refnames then some refname else none, oid := zeroOid, isSymref := false, isBroken := false }

theorem expandRef_refsShortenUnambiguousRef_main :
    ∃ name, refsShortenUnambiguousRef (listStore [text "refs/heads/main", text "refs/tags/main"])
        (text "refs/heads/main") true = some name ∧
      (∀ warnAmbiguousRefs, (expandRef (listStore [text "refs/heads/main", text "refs/tags/main"]) warnAmbiguousRefs
          name name.length zeroOid).ref = some (text "refs/heads/main") ∧
        (expandRef (listStore [text "refs/heads/main", text "refs/tags/main"]) warnAmbiguousRefs
          name name.length zeroOid).oid = zeroOid) ∧
      (true = true → name ≠ text "refs/heads/main" →
        (expandRef (listStore [text "refs/heads/main", text "refs/tags/main"]) true
          name name.length zeroOid).refsFound = 1) := by
  refine expandRef_refsShortenUnambiguousRef (listStore [text "refs/heads/main", text "refs/tags/main"]) true zeroOid
    (fun name ref href => ?_) (text "refs/heads/main") ?_
  · dsimp only [listStore] at href
    split_ifs at href
    exact (Option.some.inj href).symm
  · have hmem : text "refs/heads/main" ∈ [text "refs/heads/main", text "refs/tags/main"] := List.mem_cons_self
    dsimp only [RefStore.refExists, listStore]
    rw [if_pos hmem]
    rfl

end GitCore.Refs
