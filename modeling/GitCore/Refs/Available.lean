import GitCore.Refs.Transaction

/-!
# Availability of refnames

`refs_verify_refnames_available` of `refs.c`. The ref store is the list of the names of its
refs; a read asks whether a name is in it, and an iterator with a prefix goes through the names
that start with it.
-/

namespace GitCore.Refs

def slash : UInt8 := 47

def leadingDirs : RefName → List RefName
  | [] => []
  | c :: rest =>
    let deeper := (leadingDirs rest).map (c :: ·)
    if c = slash then [] :: deeper else deeper

/-- The additional refnames: a sorted list, or the list of the transaction's own refnames,
which shrinks as updates are rejected. A null list is an empty one. -/
inductive Extras
  | list (names : List RefName)
  | refnames

structure VerifyState where
  conflictingDirnames : List RefName
  dirnames : List RefName
  transaction : Option RefTransaction
  err : Strbuf

def Extras.names (extras : Extras) (transaction : Option RefTransaction) : List RefName :=
  match extras, transaction with
  | .list names, _ => names
  | .refnames, some transaction => transaction.refnames.map RefUpdate.refname
  | .refnames, none => []

structure CheckedName where
  refname : RefName
  updateIdx : Nat
  deriving DecidableEq

inductive VerifyResult
  /-- The name is done, free or rejected. -/
  | nextRef (s : VerifyState)
  | nameConflict (s : VerifyState)
  | bug

/-- The end of a conflict: the update is rejected, if there is a transaction that allows it. -/
def rejectName (s : VerifyState) (updateIdx : Nat) (err : Strbuf) : VerifyResult :=
  match s.transaction with
  | none => .nameConflict { s with err := s.err ++ err }
  | some transaction =>
    match refTransactionMaybeSetRejected transaction updateIdx .nameConflict (s.err ++ err) with
    | .bug => .bug
    | .no => .nameConflict { s with err := s.err ++ err }
    | .yes transaction => .nextRef { s with transaction := some transaction, err := [] }

def existsMessage (existing refname : RefName) : Strbuf :=
  text "'" ++ existing ++ text "' exists; cannot create '" ++ refname ++ text "'"

def sameTimeMessage (refname extra : RefName) : Strbuf :=
  text "cannot process '" ++ refname ++ text "' and '" ++ extra ++ text "' at the same time"

inductive DirsResult
  | leaf (s : VerifyState)
  | conflict (r : VerifyResult)

section

variable (store : List RefName) (extras : Extras) (skip : List RefName) (initialTransaction : Bool)

def checkDirs (item : CheckedName) : List RefName → VerifyState → DirsResult
  | [], s => .leaf s
  | dirname :: dirs, s =>
    if dirname ∈ skip then checkDirs item dirs s
    else if dirname ∈ s.dirnames then checkDirs item dirs s
    else
      let s' := { s with dirnames := dirname :: s.dirnames }
      if !initialTransaction && (decide (dirname ∈ s.conflictingDirnames) || decide (dirname ∈ store)) then
        .conflict <|
          match rejectName s' item.updateIdx (existsMessage dirname item.refname) with
          | .nextRef s'' => .nextRef
              { s'' with
                dirnames := s''.dirnames.filter (· ≠ dirname)
                conflictingDirnames := dirname :: s''.conflictingDirnames }
          | r => r
      else if dirname ∈ extras.names s.transaction then
        .conflict <|
          match rejectName s' item.updateIdx (sameTimeMessage item.refname dirname) with
          | .nextRef s'' => .nextRef { s'' with dirnames := s''.dirnames.filter (· ≠ dirname) }
          | r => r
      else checkDirs item dirs s'

/-- `find_descendant_ref`, from the place where `dirname` would be inserted into `extras`. -/
def findDescendantRef (dirname : RefName) (names : List RefName) : Option RefName :=
  ((names.dropWhile (fun name => name < dirname)).takeWhile (fun name => dirname.isPrefixOf name)).find?
    (fun name => name ∉ skip)

/-- The first ref below `dirname` that the iterator returns and that is not in `skip`. -/
def findExistingRef (dirname : RefName) : Option RefName :=
  (store.filter (fun name => dirname.isPrefixOf name)).find? (fun name => name ∉ skip)

def verifyRefname (item : CheckedName) (s : VerifyState) : VerifyResult :=
  match checkDirs store extras skip initialTransaction item (leadingDirs item.refname) s with
  | .conflict r => r
  | .leaf s =>
    let dirname := item.refname ++ [slash]
    match if initialTransaction then none else findExistingRef store skip dirname with
    | some name => rejectName s item.updateIdx (existsMessage name item.refname)
    | none =>
      match findDescendantRef skip dirname (extras.names s.transaction) with
      | some name => rejectName s item.updateIdx (sameTimeMessage item.refname name)
      | none => .nextRef s

def verifyRefnames : List CheckedName → VerifyState → VerifyResult
  | [], s => .nextRef s
  | item :: refnames, s =>
    match verifyRefname store extras skip initialTransaction item s with
    | .nextRef s => verifyRefnames refnames s
    | r => r

def refsVerifyRefnamesAvailable (refnames : List CheckedName) (transaction : Option RefTransaction) :
    VerifyResult :=
  verifyRefnames store extras skip initialTransaction refnames ⟨[], [], transaction, []⟩

def existingRefs : List RefName :=
  if initialTransaction then [] else store

end

def IsLeadingDir (dirname refname : RefName) : Prop :=
  (dirname ++ [slash]) <+: refname

/-- A name conflicts with the names in `others` that are not in `skip`. -/
def Conflicts (others skip : List RefName) (refname : RefName) : Prop :=
  ∃ other ∈ others, other ∉ skip ∧ (IsLeadingDir other refname ∨ IsLeadingDir refname other)

end GitCore.Refs

/-!
# Free refnames

A directory that is remembered has been found free. The list of the transaction's refnames only
shrinks, so it stays free; what a name was checked against when its turn came is at least what
is left at the end.
-/

namespace GitCore.Refs

lemma mem_leadingDirs {dirname refname : RefName} :
    dirname ∈ leadingDirs refname ↔ IsLeadingDir dirname refname := by
  unfold IsLeadingDir
  induction refname generalizing dirname with
  | nil => simp [leadingDirs]
  | cons c rest ih =>
    have hdeeper : dirname ∈ (leadingDirs rest).map (c :: ·) ↔
        ∃ dir, (dir ++ [slash]) <+: rest ∧ c :: dir = dirname := by
      simp only [List.mem_map, ih]
    have hcons : (dirname ++ [slash]) <+: (c :: rest) ↔
        (dirname = [] ∧ c = slash) ∨ ∃ dir, (dir ++ [slash]) <+: rest ∧ c :: dir = dirname := by
      cases dirname with
      | nil => simp [eq_comm]
      | cons b dir => simp [List.cons_prefix_cons, and_comm, eq_comm]
    rw [leadingDirs, hcons, ← hdeeper]
    by_cases hc : c = slash
    · simp [hc]
    · simp [hc]

lemma takeWhile_eq_filter {names : List RefName} {dirname : RefName} (hsorted : names.Pairwise (· ≤ ·))
    (hle : ∀ name ∈ names, dirname ≤ name) :
    names.takeWhile (fun name => dirname.isPrefixOf name) = names.filter (fun name => dirname.isPrefixOf name) := by
  induction names with
  | nil => rfl
  | cons first names ih =>
    obtain ⟨hfirst, htail⟩ := List.pairwise_cons.mp hsorted
    cases hprefix : dirname.isPrefixOf first with
    | true =>
      rw [List.takeWhile_cons_of_pos hprefix, List.filter_cons_of_pos hprefix,
        ih htail fun name hname => hle name (List.mem_cons_of_mem _ hname)]
    | false =>
      rw [List.takeWhile_cons_of_neg (by simp [ hprefix]), List.filter_cons_of_neg (by simp [ hprefix]), eq_comm,
        List.filter_eq_nil_iff]
      intro name hname hpre
      have hfirst_prefix := prefix_of_le_of_le (List.isPrefixOf_iff_prefix.mp hpre)
        (hle first (List.mem_cons_self ..)) (hfirst name hname)
      rw [← List.isPrefixOf_iff_prefix, hprefix] at hfirst_prefix
      exact Bool.false_ne_true hfirst_prefix

lemma findDescendantRef_eq {names : List RefName} (skip : List RefName) (dirname : RefName)
    (hsorted : names.Pairwise (· ≤ ·)) :
    findDescendantRef skip dirname names = findExistingRef names skip dirname := by
  unfold findDescendantRef findExistingRef
  congr 1
  induction names with
  | nil => rfl
  | cons first names ih =>
    obtain ⟨hfirst, htail⟩ := List.pairwise_cons.mp hsorted
    by_cases hlt : first < dirname
    · have hnot : ¬ dirname.isPrefixOf first = true := fun h =>
        absurd ( le_of_prefix (List.isPrefixOf_iff_prefix.mp h)) (not_le.mpr hlt)
      rw [List.dropWhile_cons_of_pos (by simpa using hlt), List.filter_cons_of_neg hnot, ih htail]
    · have hle : dirname ≤ first := not_lt.mp hlt
      rw [List.dropWhile_cons_of_neg (by simpa using hlt)]
      refine takeWhile_eq_filter hsorted fun name hname => ?_
      cases hname with
      | head => exact hle
      | tail _ hname => exact hle.trans (hfirst name hname)

lemma findExistingRef_eq_none {names skip : List RefName} {refname : RefName} :
    findExistingRef names skip (refname ++ [slash]) = none ↔
      ∀ name ∈ names, IsLeadingDir refname name → name ∈ skip := by
  simp [findExistingRef, List.find?_eq_none, IsLeadingDir, List.isPrefixOf_iff_prefix]

lemma findExistingRef_eq_some {names skip : List RefName} {refname name : RefName}
    (h : findExistingRef names skip (refname ++ [slash]) = some name) :
    name ∈ names ∧ name ∉ skip ∧ IsLeadingDir refname name := by
  have hmem := List.mem_filter.mp (List.mem_of_find?_eq_some h)
  exact ⟨hmem.1, by simpa using List.find?_some h, List.isPrefixOf_iff_prefix.mp hmem.2⟩

def RejectedFrom (transaction : Option RefTransaction) (updateIdx : Nat) : VerifyResult → Prop
  | .nextRef s => ∃ before after details, transaction = some before ∧ s.transaction = some after ∧
      refTransactionMaybeSetRejected before updateIdx .nameConflict details = .yes after
  | .nameConflict _ => ∀ before ∈ transaction, before.allowFailure = false
  | .bug => ∃ before, transaction = some before ∧ before.updates[updateIdx]? = none

lemma rejectedFrom_rejectName (s : VerifyState) (updateIdx : Nat) (err : Strbuf) :
    RejectedFrom s.transaction updateIdx (rejectName s updateIdx err) := by
  unfold rejectName
  cases htx : s.transaction with
  | none => simp [RejectedFrom]
  | some before =>
    cases hqueue : before.updates[updateIdx]? with
    | none =>
      simp only [refTransactionMaybeSetRejected, hqueue]
      exact ⟨before, rfl, hqueue⟩
    | some update =>
      cases hallow : before.allowFailure with
      | false => simp [refTransactionMaybeSetRejected, hqueue, hallow, RejectedFrom]
      | true =>
        simp only [refTransactionMaybeSetRejected, hqueue, hallow, Bool.not_true, Bool.false_eq_true, if_false,
          reduceCtorEq]
        exact ⟨before, _, s.err ++ err, rfl, rfl, by simp [refTransactionMaybeSetRejected, hqueue, hallow]⟩

lemma rejectName_nextRef {s s' : VerifyState} {updateIdx : Nat} {err : Strbuf}
    (h : rejectName s updateIdx err = .nextRef s') :
    s'.dirnames = s.dirnames ∧ s'.conflictingDirnames = s.conflictingDirnames := by
  unfold rejectName at h
  split at h
  · cases h
  split at h <;> cases h
  exact ⟨rfl, rfl⟩

lemma names_subset_of_rejected (extras : Extras) {before after : RefTransaction} {updateIdx : Nat}
    {err : RefTransactionError} {details : Strbuf}
    (h : refTransactionMaybeSetRejected before updateIdx err details = .yes after) :
    (extras.names (some after)).Sublist (extras.names (some before)) := by
  unfold refTransactionMaybeSetRejected at h
  split at h
  · cases h
  split_ifs at h
  cases h
  cases extras with
  | list names => exact List.Sublist.refl _
  | refnames => exact List.Sublist.map _ List.eraseP_sublist

section

variable {store : List RefName} {extras : Extras} {skip : List RefName} {initialTransaction : Bool}

structure VerifyInv (store : List RefName) (extras : Extras) (initialTransaction : Bool) (s : VerifyState) :
    Prop where
  free : ∀ dirname ∈ s.dirnames,
    dirname ∉ existingRefs store initialTransaction ∧ dirname ∉ extras.names s.transaction
  conflicting : ∀ dirname ∈ s.conflictingDirnames, dirname ∈ existingRefs store initialTransaction

lemma mem_existingRefs {name : RefName} :
    name ∈ existingRefs store initialTransaction ↔ initialTransaction = false ∧ name ∈ store := by
  cases initialTransaction <;> simp [existingRefs]

lemma VerifyInv.reject {s s₁ s' : VerifyState} {updateIdx : Nat} {err : Strbuf}
    (hinv : VerifyInv store extras initialTransaction s) (htx : s₁.transaction = s.transaction)
    (h : rejectName s₁ updateIdx err = .nextRef s') {dirs conflicting : List RefName}
    (hdirs : ∀ dir ∈ dirs, dir ∈ s.dirnames)
    (hconflicting : ∀ dir ∈ conflicting, dir ∈ existingRefs store initialTransaction) :
    VerifyInv store extras initialTransaction
      { s' with dirnames := dirs, conflictingDirnames := conflicting } where
  free dir hdir := by
    have hrej := rejectedFrom_rejectName s₁ updateIdx err
    rw [h, htx] at hrej
    obtain ⟨before, after, details, hbefore, hafter, hyes⟩ := hrej
    have hold := hinv.free dir (hdirs dir hdir)
    refine ⟨hold.1, fun hname => hold.2 ?_⟩
    dsimp only at hname
    rw [hafter] at hname
    rw [hbefore]
    exact (names_subset_of_rejected extras hyes).subset hname
  conflicting := hconflicting

lemma VerifyInv.reject_dirname {s s' : VerifyState} {updateIdx : Nat} {err : Strbuf} {dirname : RefName}
    (hinv : VerifyInv store extras initialTransaction s)
    (h : rejectName { s with dirnames := dirname :: s.dirnames } updateIdx err = .nextRef s')
    {conflicting : List RefName}
    (hconflicting : ∀ dir ∈ conflicting, dir ∈ existingRefs store initialTransaction) :
    VerifyInv store extras initialTransaction
      { s' with dirnames := s'.dirnames.filter (· ≠ dirname), conflictingDirnames := conflicting } := by
  refine hinv.reject (by rfl) h (fun dir hdir => ?_) hconflicting
  obtain ⟨hmem, hne⟩ := List.mem_filter.mp hdir
  rw [(rejectName_nextRef h).1, List.mem_cons] at hmem
  exact hmem.resolve_left (by simpa using hne)

def DirsOutcome (store : List RefName) (extras : Extras) (skip : List RefName) (initialTransaction : Bool)
    (item : CheckedName) (dirs : List RefName) (s : VerifyState) : DirsResult → Prop
  | .leaf s' => s'.transaction = s.transaction ∧ VerifyInv store extras initialTransaction s' ∧
      ∀ dirname ∈ dirs, dirname ∉ skip →
        dirname ∉ existingRefs store initialTransaction ∧ dirname ∉ extras.names s.transaction
  | .conflict r => RejectedFrom s.transaction item.updateIdx r ∧
      (∀ s', r = .nextRef s' → VerifyInv store extras initialTransaction s') ∧
      ∃ dirname ∈ dirs, dirname ∉ skip ∧
        (dirname ∈ existingRefs store initialTransaction ∨ dirname ∈ extras.names s.transaction)

variable {item : CheckedName}

lemma DirsOutcome.cons {dirname : RefName} {dirs : List RefName} {s s₁ : VerifyState}
    {r : DirsResult} (h : DirsOutcome store extras skip initialTransaction item dirs s₁ r)
    (htx : s₁.transaction = s.transaction)
    (hfree : dirname ∉ skip →
      dirname ∉ existingRefs store initialTransaction ∧ dirname ∉ extras.names s.transaction) :
    DirsOutcome store extras skip initialTransaction item (dirname :: dirs) s r := by
  cases r with
  | leaf s' =>
    obtain ⟨hs', hinv, hdirs⟩ := h
    refine ⟨hs'.trans htx, hinv, fun dir hdir hskip => ?_⟩
    cases hdir with
    | head => exact hfree hskip
    | tail _ hdir => exact htx ▸ hdirs dir hdir hskip
  | conflict r =>
    obtain ⟨hrej, hinv, dir, hdir, hskip, hconflict⟩ := h
    exact ⟨htx ▸ hrej, hinv, dir, List.mem_cons_of_mem _ hdir, hskip, htx ▸ hconflict⟩

lemma checkDirs_spec (item : CheckedName) (dirs : List RefName) {s : VerifyState}
    (hinv : VerifyInv store extras initialTransaction s) :
    DirsOutcome store extras skip initialTransaction item dirs s
      (checkDirs store extras skip initialTransaction item dirs s) := by
  induction dirs generalizing s with
  | nil => exact ⟨rfl, hinv, by simp⟩
  | cons dirname dirs ih =>
    rw [checkDirs]
    by_cases hskip : dirname ∈ skip
    · rw [if_pos hskip]
      exact (ih hinv).cons rfl fun h => absurd hskip h
    rw [if_neg hskip]
    by_cases hseen : dirname ∈ s.dirnames
    · rw [if_pos hseen]
      exact (ih hinv).cons rfl fun _ => hinv.free dirname hseen
    rw [if_neg hseen]
    dsimp only
    split_ifs with hexists hextra
    · -- an existing ref, read now or found before
      have hmem : dirname ∈ existingRefs store initialTransaction := by
        simp only [Bool.and_eq_true, Bool.not_eq_true', Bool.or_eq_true, decide_eq_true_eq] at hexists
        obtain ⟨hinitial, hconflicting | hstore⟩ := hexists
        · exact hinv.conflicting dirname hconflicting
        · exact mem_existingRefs.mpr ⟨hinitial, hstore⟩
      have hrej := rejectedFrom_rejectName { s with dirnames := dirname :: s.dirnames } item.updateIdx
        (existsMessage dirname item.refname)
      cases hresult : rejectName { s with dirnames := dirname :: s.dirnames } item.updateIdx
        (existsMessage dirname item.refname) with
      | nextRef s' =>
        rw [hresult] at hrej
        refine ⟨hrej, fun s'' hs'' => ?_, dirname, List.mem_cons_self .., hskip, .inl hmem⟩
        obtain rfl := VerifyResult.nextRef.inj hs''
        refine hinv.reject_dirname hresult fun dir hdir => ?_
        cases hdir with
        | head => exact hmem
        | tail _ hdir => exact hinv.conflicting dir ((rejectName_nextRef hresult).2 ▸ hdir)
      | nameConflict s' =>
        rw [hresult] at hrej
        exact ⟨hrej, by simp, dirname, List.mem_cons_self .., hskip, .inl hmem⟩
      | bug =>
        rw [hresult] at hrej
        exact ⟨hrej, by simp, dirname, List.mem_cons_self .., hskip, .inl hmem⟩
    · have hrej := rejectedFrom_rejectName { s with dirnames := dirname :: s.dirnames } item.updateIdx
        (sameTimeMessage item.refname dirname)
      cases hresult : rejectName { s with dirnames := dirname :: s.dirnames } item.updateIdx
        (sameTimeMessage item.refname dirname) with
      | nextRef s' =>
        rw [hresult] at hrej
        refine ⟨hrej, fun s'' hs'' => ?_, dirname, List.mem_cons_self .., hskip, .inr hextra⟩
        obtain rfl := VerifyResult.nextRef.inj hs''
        exact hinv.reject_dirname hresult fun dir hdir => hinv.conflicting dir ((rejectName_nextRef hresult).2 ▸ hdir)
      | nameConflict s' =>
        rw [hresult] at hrej
        exact ⟨hrej, by simp, dirname, List.mem_cons_self .., hskip, .inr hextra⟩
      | bug =>
        rw [hresult] at hrej
        exact ⟨hrej, by simp, dirname, List.mem_cons_self .., hskip, .inr hextra⟩
    · have hfree : dirname ∉ existingRefs store initialTransaction ∧ dirname ∉ extras.names s.transaction := by
        refine ⟨fun hmem => hexists ?_, hextra⟩
        obtain ⟨hinitial, hstore⟩ := mem_existingRefs.mp hmem
        simp [hinitial, hstore]
      refine (ih (s := { s with dirnames := dirname :: s.dirnames }) ⟨fun dir hdir => ?_, hinv.conflicting⟩).cons
        rfl fun _ => hfree
      cases hdir with
      | head => exact hfree
      | tail _ hdir => exact hinv.free dir hdir

/-- What the check of one name does: it is free of everything it is checked against, or its
update is rejected. -/
def NameOutcome (store : List RefName) (extras : Extras) (skip : List RefName) (initialTransaction : Bool)
    (item : CheckedName) (s : VerifyState) (r : VerifyResult) : Prop :=
  (∃ s', r = .nextRef s' ∧ s'.transaction = s.transaction ∧ VerifyInv store extras initialTransaction s' ∧
    ¬ Conflicts (existingRefs store initialTransaction ++ extras.names s.transaction) skip item.refname) ∨
  (Conflicts (existingRefs store initialTransaction ++ extras.names s.transaction) skip item.refname ∧
    RejectedFrom s.transaction item.updateIdx r ∧
    ∀ s', r = .nextRef s' → VerifyInv store extras initialTransaction s')

lemma nameOutcome_rejectName {s s₁ : VerifyState} {err : Strbuf} {other : RefName}
    (hinv : VerifyInv store extras initialTransaction s₁) (htx : s₁.transaction = s.transaction)
    (hother : other ∈ existingRefs store initialTransaction ∨ other ∈ extras.names s₁.transaction)
    (hskip : other ∉ skip) (hbelow : IsLeadingDir item.refname other) :
    NameOutcome store extras skip initialTransaction item s (rejectName s₁ item.updateIdx err) := by
  refine .inr ⟨⟨other, ?_, hskip, .inr hbelow⟩, htx ▸ rejectedFrom_rejectName s₁ item.updateIdx err, ?_⟩
  · rw [List.mem_append, ← htx]
    exact hother
  · intro s' h
    obtain ⟨hdirs, hconflicting⟩ := rejectName_nextRef h
    exact hinv.reject rfl h (fun dir hdir => hdirs ▸ hdir) fun dir hdir =>
      hinv.conflicting dir (hconflicting ▸ hdir)

lemma verifyRefname_spec (item : CheckedName) {s : VerifyState}
    (hinv : VerifyInv store extras initialTransaction s)
    (hsorted : (extras.names s.transaction).Pairwise (· ≤ ·)) :
    NameOutcome store extras skip initialTransaction item s
      (verifyRefname store extras skip initialTransaction item s) := by
  have hdirs := @checkDirs_spec _ _ skip _ item (leadingDirs item.refname) _ hinv
  unfold verifyRefname
  cases hcheck : checkDirs store extras skip initialTransaction item (leadingDirs item.refname) s with
  | conflict r =>
    rw [hcheck] at hdirs
    obtain ⟨hrej, hnext, dir, hdir, hskip, hconflict⟩ := hdirs
    exact .inr ⟨⟨dir, List.mem_append.mpr hconflict, hskip, .inl (mem_leadingDirs.mp hdir)⟩, hrej, hnext⟩
  | leaf s₁ =>
    rw [hcheck] at hdirs
    obtain ⟨htx, hinv₁, hfree⟩ := hdirs
    dsimp only
    have hexisting : (if initialTransaction then none else findExistingRef store skip (item.refname ++ [slash])) =
        findExistingRef (existingRefs store initialTransaction) skip (item.refname ++ [slash]) := by
      cases initialTransaction <;> rfl
    rw [hexisting]
    cases hfind : findExistingRef (existingRefs store initialTransaction) skip (item.refname ++ [slash]) with
    | some name =>
      obtain ⟨hname, hskip, hbelow⟩ := findExistingRef_eq_some hfind
      exact nameOutcome_rejectName hinv₁ htx (.inl hname) hskip hbelow
    | none =>
      dsimp only
      rw [htx, findDescendantRef_eq skip _ hsorted]
      cases hextra : findExistingRef (extras.names s.transaction) skip (item.refname ++ [slash]) with
      | some name =>
        obtain ⟨hname, hskip, hbelow⟩ := findExistingRef_eq_some hextra
        exact nameOutcome_rejectName hinv₁ htx (.inr (htx ▸ hname)) hskip hbelow
      | none =>
        refine .inl ⟨s₁, rfl, htx, hinv₁, ?_⟩
        rintro ⟨other, hother, hskip, habove | hbelow⟩
        · have := hfree other (mem_leadingDirs.mpr habove) hskip
          exact (List.mem_append.mp hother).elim this.1 this.2
        · obtain hother | hother := List.mem_append.mp hother
          · exact hskip (findExistingRef_eq_none.mp hfind other hother hbelow)
          · exact hskip (findExistingRef_eq_none.mp hextra other hother hbelow)

lemma ne_nextRef_of_rejectedFrom {transaction : Option RefTransaction} {updateIdx : Nat} {r : VerifyResult}
    (hno : ∀ before ∈ transaction, before.allowFailure = false) (h : RejectedFrom transaction updateIdx r)
    (s : VerifyState) : r ≠ .nextRef s := by
  rintro rfl
  obtain ⟨before, after, details, rfl, -, hyes⟩ := h
  unfold refTransactionMaybeSetRejected at hyes
  split at hyes
  · cases hyes
  · simp [hno before rfl] at hyes

variable {refnames : List CheckedName}

lemma verifyRefnames_succeeds_iff {s : VerifyState}
    (hno : ∀ before ∈ s.transaction, before.allowFailure = false)
    (hinv : VerifyInv store extras initialTransaction s)
    (hsorted : (extras.names s.transaction).Pairwise (· ≤ ·)) :
    (∃ s', verifyRefnames store extras skip initialTransaction refnames s = .nextRef s') ↔
      ∀ item ∈ refnames,
        ¬ Conflicts (existingRefs store initialTransaction ++ extras.names s.transaction) skip item.refname := by
  induction refnames generalizing s with
  | nil => simp [verifyRefnames]
  | cons item refnames ih =>
    rw [verifyRefnames, List.forall_mem_cons]
    obtain ⟨s₁, hstep, htx, hinv₁, hfree⟩ | ⟨hconflict, hrej, -⟩ :=
      @verifyRefname_spec _ _ skip _ item _ hinv hsorted
    · rw [hstep]
      dsimp only
      rw [ih (htx ▸ hno) hinv₁ (htx ▸ hsorted), htx]
      exact ⟨fun h => ⟨hfree, h⟩, And.right⟩
    · constructor
      · rintro ⟨s', h⟩
        split at h
        · rename_i s₁ hstep
          exact absurd hstep (ne_nextRef_of_rejectedFrom hno hrej s₁)
        · exact absurd h (ne_nextRef_of_rejectedFrom hno hrej s')
      · intro h
        exact absurd hconflict h.1

lemma Conflicts.mono {existing names names' : List RefName} {refname : RefName}
    (h : Conflicts (existing ++ names) skip refname) (hsub : names ⊆ names') :
    Conflicts (existing ++ names') skip refname := by
  obtain ⟨other, hother, hskip, hdir⟩ := h
  refine ⟨other, ?_, hskip, hdir⟩
  exact List.mem_append.mpr ((List.mem_append.mp hother).imp_right fun h => hsub h)

end

def rejectedNames (updates : List RefUpdate) (rejections : List Rejection) : List RefName :=
  rejections.filterMap (fun rejection => updates[rejection.updateIdx]?.map RefUpdate.refname)

lemma stringListRemove_eq_filter {refnames : List RefUpdate} (h : Overlay.Sorted RefUpdate.refname refnames)
    (refname : RefName) :
    stringListRemove refnames refname = refnames.filter (fun update => update.refname ≠ refname) := by
  unfold stringListRemove
  induction refnames with
  | nil => rfl
  | cons first refnames ih =>
    obtain ⟨hfirst, htail⟩ := List.pairwise_cons.mp h
    by_cases heq : first.refname = refname
    · rw [List.eraseP_cons_of_pos (by simpa using heq), List.filter_cons_of_neg (by simpa using heq), eq_comm,
        List.filter_eq_self]
      intro update hu
      simpa [← heq] using (hfirst update hu).ne'
    · rw [List.eraseP_cons_of_neg (by simpa using heq), List.filter_cons_of_pos (by simpa using heq), ih htail]

/-- The updates that are left after a check in failure mode: those rejected conflict, the others
stay, and the checked names among them are free. -/
structure Verified (store skip : List RefName) (initialTransaction : Bool) (refnames : List CheckedName)
    (before after : RefTransaction) (rejections : List Rejection) : Prop where
  rejections_eq : after.rejections = before.rejections ++ rejections
  conflicts : ∀ rejection ∈ rejections, ∃ item ∈ refnames, item.updateIdx = rejection.updateIdx ∧
    Conflicts (existingRefs store initialTransaction ++ before.refnames.map RefUpdate.refname) skip item.refname
  remaining : after.refnames = before.refnames.filter
    (fun update => update.refname ∉ rejectedNames before.updates rejections)
  free : ∀ item ∈ refnames, item.refname ∈ after.refnames.map RefUpdate.refname →
    ¬ Conflicts (existingRefs store initialTransaction ++ after.refnames.map RefUpdate.refname) skip item.refname

section

variable {store skip : List RefName} {initialTransaction : Bool}

lemma Verified.refnames_sublist {before after : RefTransaction}
    {rejections : List Rejection} (h : Verified store skip initialTransaction refnames before after rejections) :
    (after.refnames.map RefUpdate.refname).Sublist (before.refnames.map RefUpdate.refname) := by
  rw [h.remaining]
  exact List.filter_sublist.map _

lemma Verified.cons_free {before after : RefTransaction}
    {rejections : List Rejection} (h : Verified store skip initialTransaction refnames before after rejections)
    (hfree : ¬ Conflicts (existingRefs store initialTransaction ++ before.refnames.map RefUpdate.refname) skip
      item.refname) :
    Verified store skip initialTransaction (item :: refnames) before after rejections where
  rejections_eq := h.rejections_eq
  conflicts rejection hrej := by
    obtain ⟨item', hitem', heq, hconflict⟩ := h.conflicts rejection hrej
    exact ⟨item', List.mem_cons_of_mem _ hitem', heq, hconflict⟩
  remaining := h.remaining
  free item' hitem' hmem := by
    cases hitem' with
    | head =>
      intro hconflict
      exact hfree (hconflict.mono h.refnames_sublist.subset)
    | tail _ hitem' => exact h.free item' hitem' hmem

lemma Verified.cons_rejected {before mid after : RefTransaction}
    {update : RefUpdate} {rejection : Rejection} {rejections : List Rejection}
    (h : Verified store skip initialTransaction refnames mid after rejections)
    (hsorted : Overlay.Sorted RefUpdate.refname before.refnames)
    (hconflict : Conflicts (existingRefs store initialTransaction ++ before.refnames.map RefUpdate.refname) skip
      item.refname)
    (hidx : rejection.updateIdx = item.updateIdx) (hupdate : before.updates[item.updateIdx]? = some update)
    (hname : update.refname = item.refname) (hupdates : mid.updates = before.updates)
    (hrefnames : mid.refnames = stringListRemove before.refnames update.refname)
    (hrejections : mid.rejections = before.rejections ++ [rejection]) :
    Verified store skip initialTransaction (item :: refnames) before after (rejection :: rejections) where
  rejections_eq := by simp [h.rejections_eq, hrejections]
  conflicts rejection' hrej := by
    cases hrej with
    | head => exact ⟨item, List.mem_cons_self .., hidx.symm, hconflict⟩
    | tail _ hrej =>
      obtain ⟨item', hitem', heq, hconflict'⟩ := h.conflicts rejection' hrej
      refine ⟨item', List.mem_cons_of_mem _ hitem', heq, hconflict'.mono ?_⟩
      rw [hrefnames]
      exact (List.eraseP_sublist.map _).subset
  remaining := by
    have hcons : rejectedNames before.updates (rejection :: rejections) =
        update.refname :: rejectedNames before.updates rejections :=
      List.filterMap_cons_some (by rw [hidx, hupdate]; rfl)
    rw [h.remaining, hrefnames, stringListRemove_eq_filter hsorted, List.filter_filter, hupdates, hcons]
    refine List.filter_congr fun u _ => ?_
    simp [Bool.and_comm]
  free item' hitem' hmem := by
    cases hitem' with
    | head =>
      have hmid := h.refnames_sublist.subset hmem
      rw [hrefnames, stringListRemove_eq_filter hsorted] at hmid
      obtain ⟨u, hu, heq⟩ := List.mem_map.mp hmid
      exact absurd (heq.trans hname.symm) (by simpa using (List.mem_filter.mp hu).2)
    | tail _ hitem' => exact h.free item' hitem' hmem

lemma verifyRefnames_verified {s : VerifyState} {before : RefTransaction}
    (hs : s.transaction = some before) (hallow : before.allowFailure = true)
    (hsorted : Overlay.Sorted RefUpdate.refname before.refnames)
    (hitems : ∀ item ∈ refnames, ∃ update, before.updates[item.updateIdx]? = some update ∧
      update.refname = item.refname)
    (hinv : VerifyInv store .refnames initialTransaction s) :
    ∃ s' after rejections, verifyRefnames store .refnames skip initialTransaction refnames s = .nextRef s' ∧
      s'.transaction = some after ∧
      Verified store skip initialTransaction refnames before after rejections := by
  induction refnames generalizing s before with
  | nil => exact ⟨s, before, [], rfl, hs, by simp, by simp, by simp [rejectedNames], by simp⟩
  | cons item refnames ih =>
    have hnames : Extras.refnames.names s.transaction = before.refnames.map RefUpdate.refname := by
      rw [hs]
      rfl
    have hle : (Extras.refnames.names s.transaction).Pairwise (· ≤ ·) := by
      rw [hnames, List.pairwise_map]
      exact hsorted.imp fun h => h.le
    rw [verifyRefnames]
    obtain ⟨s₁, hstep, htx, hinv₁, hfree⟩ | ⟨hconflict, hrej, hnext⟩ :=
      @verifyRefname_spec _ _ skip _ item _ hinv hle
    · obtain ⟨s', after, rejections, hrun, hs', hverified⟩ := ih (htx.trans hs) hallow hsorted
        (fun item' h => hitems item' (List.mem_cons_of_mem _ h)) hinv₁
      rw [hstep]
      exact ⟨s', after, rejections, hrun, hs', hverified.cons_free (hnames ▸ hfree)⟩
    · obtain ⟨update, hupdate, hname⟩ := hitems item (List.mem_cons_self ..)
      cases hstep : verifyRefname store .refnames skip initialTransaction item s with
      | nextRef s₁ =>
        rw [hstep] at hrej
        obtain ⟨before', mid, details, hbefore, hmid, hyes⟩ := hrej
        obtain rfl : before' = before := Option.some.inj (hbefore.symm.trans hs)
        obtain rfl : _ = mid := by simpa [refTransactionMaybeSetRejected, hupdate, hallow] using hyes
        obtain ⟨s', after, rejections, hrun, hs', hverified⟩ := ih hmid rfl
          (hsorted.sublist List.eraseP_sublist) (fun item' h => hitems item' (List.mem_cons_of_mem _ h))
          (hnext s₁ hstep)
        exact ⟨s', after, _, hrun, hs', hverified.cons_rejected hsorted (hnames ▸ hconflict) rfl hupdate hname rfl rfl rfl⟩
      | nameConflict s₁ =>
        rw [hstep] at hrej
        exact absurd (hrej before hs) (by simp [hallow])
      | bug =>
        rw [hstep] at hrej
        obtain ⟨before', hbefore, hnone⟩ := hrej
        obtain rfl : before' = before := Option.some.inj (hbefore.symm.trans hs)
        simp [hupdate] at hnone

end

lemma verifyInv_start (store : List RefName) (extras : Extras) (initialTransaction : Bool)
    (transaction : Option RefTransaction) :
    VerifyInv store extras initialTransaction ⟨[], [], transaction, []⟩ :=
  ⟨by simp, by simp⟩

/-- Without failure mode the check succeeds if and only if no name conflicts with an existing ref
or an extra outside `skip`. In failure mode, with the transaction's own refnames as extras, only
conflicting names are rejected, and the checked names that are left conflict with nothing. -/
theorem refsVerifyRefnamesAvailable_spec (store skip : List RefName) (initialTransaction : Bool)
    (refnames : List CheckedName) :
    (∀ (extras : Extras) (transaction : Option RefTransaction),
      (∀ before ∈ transaction, before.allowFailure = false) →
      (extras.names transaction).Pairwise (· ≤ ·) →
      ((∃ s, refsVerifyRefnamesAvailable store extras skip initialTransaction refnames transaction = .nextRef s) ↔
        ∀ item ∈ refnames,
          ¬ Conflicts (existingRefs store initialTransaction ++ extras.names transaction) skip item.refname)) ∧
    ∀ before : RefTransaction, before.allowFailure = true →
      Overlay.Sorted RefUpdate.refname before.refnames →
      (∀ item ∈ refnames, ∃ update, before.updates[item.updateIdx]? = some update ∧
        update.refname = item.refname) →
      ∃ s after rejections,
        refsVerifyRefnamesAvailable store .refnames skip initialTransaction refnames (some before) = .nextRef s ∧
        s.transaction = some after ∧
        Verified store skip initialTransaction refnames before after rejections := by
  constructor
  · intro extras transaction hno hsorted
    exact verifyRefnames_succeeds_iff (s := ⟨[], [], transaction, []⟩) hno (verifyInv_start ..) hsorted
  · intro before hallow hsorted hitems
    exact verifyRefnames_verified rfl hallow hsorted hitems (verifyInv_start ..)

def directoryTransaction : RefTransaction :=
  let updates := ["a", "a/b"].map (fun name =>
    newRefUpdate (text name) true false false false (some ⟨[1]⟩) none zeroOid)
  ⟨true, updates, updates, []⟩

theorem refsVerifyRefnamesAvailable_directory :
    (¬ ∃ s, refsVerifyRefnamesAvailable [] (.list [text "a/b"]) [] false [⟨text "a", 0⟩] none = .nextRef s) ∧
    ∃ s after rejections,
      refsVerifyRefnamesAvailable [] .refnames [] false [⟨text "a", 0⟩, ⟨text "a/b", 1⟩]
        (some directoryTransaction) = .nextRef s ∧
      s.transaction = some after ∧
      Verified [] [] false [⟨text "a", 0⟩, ⟨text "a/b", 1⟩] directoryTransaction after rejections := by
  constructor
  · rw [(refsVerifyRefnamesAvailable_spec [] [] false [⟨text "a", 0⟩]).1 (.list [text "a/b"]) none (by simp)
      (List.pairwise_singleton _ _)]
    intro h
    exact h _ (List.mem_cons_self ..) ⟨text "a/b", by decide, by simp, .inr ⟨text "b", by decide⟩⟩
  · refine (refsVerifyRefnamesAvailable_spec [] [] false [⟨text "a", 0⟩, ⟨text "a/b", 1⟩]).2
      directoryTransaction rfl ?_ ?_
    · exact List.pairwise_pair.mpr (by decide)
    · intro item hitem
      cases hitem with
      | head => exact ⟨_, rfl, rfl⟩
      | tail _ hitem =>
        cases hitem with
        | head => exact ⟨_, rfl, rfl⟩
        | tail _ hitem => cases hitem

/-- A leading directory in `skip` is passed over even if it is also one of the extras. -/
theorem refsVerifyRefnamesAvailable_skipped_extra :
    ¬ ((∃ s, refsVerifyRefnamesAvailable [] (.list [text "a"]) [text "a"] false [⟨text "a/b", 0⟩] none = .nextRef s) ↔
      ∀ item ∈ [(⟨text "a/b", 0⟩ : CheckedName)],
        (∀ dir, IsLeadingDir dir item.refname → dir ∉ [text "a"]) ∧
        ∀ other ∈ [text "a"], IsLeadingDir item.refname other → other ∈ [text "a"]) := by
  intro h
  have hfree := (h.mp ⟨_, rfl⟩ _ (List.mem_cons_self ..)).1 (text "a") ⟨text "b", by decide⟩
  exact hfree (List.mem_singleton.mpr rfl)

end GitCore.Refs
