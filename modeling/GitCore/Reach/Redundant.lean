import GitCore.Reach.MergeBases

/-!
# Removing redundant commits

Both forms of `remove_redundant` keep the commits that are not proper ancestors of another commit
of the array, and leave no marks.
-/

namespace GitCore.Reach

variable {C : Type} {dag : CommitDag C}

/-- No commit of the array has `c` as a proper ancestor. -/
def Independent (dag : CommitDag C) (array : List C) (c : C) : Prop :=
  ∀ d ∈ array, ¬ ProperAncestor dag c d

/-- `kept` are the independent commits of the array, in its order. -/
def Keeps (dag : CommitDag C) (array kept : List C) : Prop :=
  kept.Sublist array ∧ ∀ c, c ∈ kept ↔ c ∈ array ∧ Independent dag array c

lemma Keeps.unique [DecidableEq C] {array kept kept' : List C} (hnodup : array.Nodup) (h : Keeps dag array kept)
    (h' : Keeps dag array kept') : kept = kept' := by
  have hfilter : ∀ {kept₁ : List C}, Keeps dag array kept₁ → kept₁ = array.filter (fun c => c ∈ kept₁) := by
    intro kept₁ h₁
    have hsub : (kept₁.filter (fun c => c ∈ kept₁)).Sublist (array.filter (fun c => c ∈ kept₁)) := h₁.1.filter _
    rw [List.filter_eq_self.mpr (by simp)] at hsub
    refine hsub.eq_of_length_le ((hnodup.filter _).subperm fun c hc => ?_).length_le
    simpa using (List.mem_filter.mp hc).2
  have hsame : ∀ c, c ∈ kept ↔ c ∈ kept' := fun c => (h.2 c).trans (h'.2 c).symm
  rw [hfilter h, hfilter h']
  simp [hsame]

lemma exists_independent [Finite C] {array : List C} {d : C} (hd : d ∈ array) :
    ∃ m ∈ array, Reaches dag m d ∧ Independent dag array m := by
  obtain ⟨m, hm, hreach, hmax⟩ := @exists_maximal _ dag _ (· ∈ array) _ hd
  exact ⟨m, hm, hreach, hmax⟩

lemma queueOrder_paintOrder (dag : CommitDag C) (minGeneration : Nat) (correctedCommitDatesEnabled : Bool) :
    QueueOrder (paintOrder dag minGeneration correctedCommitDatesEnabled) := by
  unfold paintOrder
  split_ifs
  · exact queueOrder_date dag
  · exact queueOrder_gen dag

lemma genOrdered_gen (dag : CommitDag C) : GenOrdered dag (compareCommitsByGenThenCommitDate dag) := by
  intro a b hab
  rw [compareByGen_iff] at hab
  omega

lemma genOrdered_paintOrder {minGeneration : Nat} {correctedCommitDatesEnabled : Bool}
    (h : minGeneration ≠ 0 ∨ correctedCommitDatesEnabled = true) :
    GenOrdered dag (paintOrder dag minGeneration correctedCommitDatesEnabled) := by
  unfold paintOrder
  rw [if_neg]
  · exact genOrdered_gen dag
  · rintro ⟨hmin, henabled⟩
    obtain h | h := h
    · exact h hmin
    · simp [h] at henabled

variable [DecidableEq C] [Fintype C]

lemma paintDownToCommon_painted (dag : CommitDag C) (correctedCommitDatesEnabled : Bool) (one : C) {twos : List C}
    (htwos : twos ≠ []) (minGeneration : Nat) (findAll : Bool) :
    ∃ marks result,
      paintDownToCommon dag correctedCommitDatesEnabled ∅ one twos minGeneration findAll = .done marks result ∧
      Painted dag one twos minGeneration findAll
        (GenOrdered dag (paintOrder dag minGeneration correctedCommitDatesEnabled)) (startMarks one twos)
        marks result :=
  paintWith_painted (queueOrder_paintOrder dag minGeneration correctedCommitDatesEnabled)
    (fun hmin => genOrdered_paintOrder (.inl hmin)) findAll one htwos

lemma paintDownToCommon_nil (dag : CommitDag C) (correctedCommitDatesEnabled : Bool) (one : C)
    (minGeneration : Nat) (findAll : Bool) :
    paintDownToCommon dag correctedCommitDatesEnabled ∅ one [] minGeneration findAll =
      .done {(one, .parent1)} [one] := by
  simp [paintDownToCommon, paintWith, addFlags]

lemma clear_parent1 (dag : CommitDag C) (one : C) :
    clearCommitMarksMany dag allFlags {(one, Mark.parent1)} [one] = ∅ := by
  refine Finset.eq_empty_of_forall_notMem fun ⟨d, m⟩ hmem => ?_
  have hpath : ∀ d, Flagged allFlags {(one, Mark.parent1)} d →
      ∃ c ∈ [one], FlaggedPath dag allFlags {(one, Mark.parent1)} c d := by
    rintro d ⟨m, hm, hin⟩
    obtain ⟨rfl, rfl⟩ := Prod.mk.inj (Finset.mem_singleton.mp hin)
    exact ⟨d, List.mem_singleton.mpr rfl, .refl ⟨_, hm, hin⟩⟩
  have hm := ((mem_clearCommitMarksMany hpath).mp hmem).2
  cases m <;> simp [allFlags] at hm

section NoGen

variable {array : List C}

structure NoGenInv (dag : CommitDag C) (array : List C) (rounds : List (Fin array.length))
    (s : Marks C × Finset (Fin array.length)) : Prop where
  marks : s.1 = ∅
  sound : ∀ i ∈ s.2, ¬ Independent dag array (array.get i)
  complete : ∀ i ∈ rounds, ¬ Independent dag array (array.get i) → i ∈ s.2

omit [DecidableEq C] [Fintype C] in
lemma not_independent_of_reaches (hnodup : array.Nodup) {i j : Fin array.length} (hne : i ≠ j)
    (h : Reaches dag (array.get j) (array.get i)) : ¬ Independent dag array (array.get i) := by
  intro hind
  obtain heq | hlt := reaches_iff_eq_or_properAncestor.mp h
  · exact hne (hnodup.injective_get heq)
  · exact hind _ (array.get_mem j) hlt

omit [DecidableEq C] [Fintype C] in
lemma foldl_min_le (work : List C) (g : Nat) :
    work.foldl (fun g c => min g (dag.generation c)) g ≤ g := by
  induction work generalizing g with
  | nil => exact le_rfl
  | cons c work ih => exact (ih _).trans (min_le_left _ _)

lemma NoGenInv.round (hnodup : array.Nodup) {correctedCommitDatesEnabled : Bool}
    {rounds : List (Fin array.length)} {s : Marks C × Finset (Fin array.length)}
    (h : NoGenInv dag array rounds s) (i : Fin array.length) :
    ∃ s', noGenRound dag correctedCommitDatesEnabled array s i = some s' ∧
      NoGenInv dag array (i :: rounds) s' := by
  unfold noGenRound
  dsimp only
  split_ifs with hi
  · refine ⟨s, rfl, h.marks, h.sound, fun j hj hred => ?_⟩
    cases hj with
    | head => exact hi
    | tail _ hj => exact h.complete j hj hred
  · set filledIndex := (List.finRange array.length).filter (fun j => j ≠ i ∧ j ∉ s.2) with hfilled
    have hmemFilled : ∀ j, j ∈ filledIndex ↔ j ≠ i ∧ j ∉ s.2 := by
      intro j
      simp [hfilled]
    set work := filledIndex.map array.get
    set minGeneration := work.foldl (fun g c => min g (dag.generation c)) (dag.generation (array.get i))
    have hmin : minGeneration ≤ dag.generation (array.get i) := foldl_min_le work _
    -- an independent commit above `array[i]` is in `work`
    have hwork : ¬ Independent dag array (array.get i) → ∃ two ∈ work, Reaches dag two (array.get i) := by
      intro hred
      simp only [Independent, not_forall, not_not] at hred
      obtain ⟨d, hd, hlt⟩ := hred
      obtain ⟨m, hm, hreach, hind⟩ := @exists_independent _ dag _ _ _ hd
      obtain ⟨k, rfl⟩ := List.get_of_mem hm
      refine ⟨array.get k, List.mem_map_of_mem ((hmemFilled k).mpr ⟨?_, fun hk => h.sound k hk hind⟩),
        hreach.trans hlt.reaches⟩
      rintro rfl
      exact hind d hd hlt
    rw [h.marks]
    by_cases hempty : work = []
    · have hnone : filledIndex = [] := List.map_eq_nil_iff.mp hempty
      rw [hempty, paintDownToCommon_nil]
      refine ⟨_, rfl, clear_parent1 dag (array.get i), fun j hj => ?_, fun j hj hred => ?_⟩
      · rw [if_neg (by simp), hnone] at hj
        exact h.sound j (by simpa using hj)
      · rw [if_neg (by simp), hnone]
        cases hj with
        | head =>
          obtain ⟨two, htwo, -⟩ := hwork hred
          rw [hempty] at htwo
          cases htwo
        | tail _ hj => simpa using h.complete j hj hred
    · obtain ⟨marks, result, hpaint, hp⟩ :=
        paintDownToCommon_painted dag correctedCommitDatesEnabled (array.get i) hempty minGeneration true
      rw [hpaint]
      refine ⟨_, rfl, hp.clear, fun j hj => ?_, fun j hj hred => ?_⟩
      · obtain hj | hj := Finset.mem_union.mp hj
        · split_ifs at hj with h2
          · obtain rfl | hj := Finset.mem_insert.mp hj
            · obtain ⟨two, htwo, hreach⟩ := hp.parent2 _ h2
              obtain ⟨k, hk, rfl⟩ := List.mem_map.mp htwo
              exact not_independent_of_reaches hnodup ((hmemFilled k).mp hk).1.symm hreach
            · exact h.sound j hj
          · exact h.sound j hj
        · obtain ⟨hk, h1⟩ := List.mem_filter.mp (List.mem_toFinset.mp hj)
          exact not_independent_of_reaches hnodup ((hmemFilled j).mp hk).1
            (hp.parent1 _ (by simpa using h1))
      · refine Finset.mem_union_left _ ?_
        cases hj with
        | head =>
          rw [if_pos ((hp.parent2_one hmin).mpr (hwork hred))]
          exact Finset.mem_insert_self ..
        | tail _ hj =>
          have := h.complete j hj hred
          split_ifs
          · exact Finset.mem_insert_of_mem this
          · exact this

lemma NoGenInv.rounds (hnodup : array.Nodup) {correctedCommitDatesEnabled : Bool}
    (rest : List (Fin array.length)) {rounds : List (Fin array.length)}
    {s : Marks C × Finset (Fin array.length)} (h : NoGenInv dag array rounds s) :
    ∃ s', rest.foldlM (noGenRound dag correctedCommitDatesEnabled array) s = some s' ∧
      NoGenInv dag array (rest.reverse ++ rounds) s' := by
  induction rest generalizing rounds s with
  | nil => exact ⟨s, rfl, by simpa using h⟩
  | cons i rest ih =>
    obtain ⟨s₁, hround, h₁⟩ := @NoGenInv.round _ dag _ _ array hnodup correctedCommitDatesEnabled _ _ h i
    obtain ⟨s', hrest, h'⟩ := ih h₁
    refine ⟨s', ?_, by simpa using h'⟩
    rw [List.foldlM_cons, hround]
    exact hrest

theorem removeRedundantNoGen_keeps (dag : CommitDag C) (correctedCommitDatesEnabled : Bool)
    (hnodup : array.Nodup) :
    ∃ kept, removeRedundantNoGen dag correctedCommitDatesEnabled ∅ array = some (∅, kept) ∧
      Keeps dag array kept := by
  have hstart : NoGenInv dag array [] (∅, ∅) := ⟨rfl, by simp, by simp⟩
  obtain ⟨s', hrun, h⟩ := @NoGenInv.rounds _ dag _ _ array hnodup correctedCommitDatesEnabled
    (List.finRange array.length) _ _ hstart
  refine ⟨((List.finRange array.length).filter (fun i => i ∉ s'.2)).map array.get, ?_, ?_, fun c => ?_⟩
  · simp only [removeRedundantNoGen, hrun, Option.map_some, h.marks]
  · have := (List.filter_sublist (p := fun i => decide (i ∉ s'.2)) (l := List.finRange array.length)).map array.get
    rwa [List.map_get_finRange] at this
  · simp only [List.mem_map, List.mem_filter, List.mem_finRange, true_and, decide_eq_true_eq]
    constructor
    · rintro ⟨i, hi, rfl⟩
      refine ⟨array.get_mem i, ?_⟩
      by_contra hred
      exact hi (h.complete i (by simp) hred)
    · rintro ⟨hc, hind⟩
      obtain ⟨i, rfl⟩ := List.get_of_mem hc
      exact ⟨i, fun hi => h.sound i hi hind, rfl⟩

end NoGen

section WithGen

variable {array walkStart sortedArray : List C}

/-- The marks of the walk: `RESULT` on candidates, `STALE` on proper ancestors of commits of the
array, on paths from the commits the walk has started with. -/
structure WalkMarks (dag : CommitDag C) (array walkStart : List C) (s : RedundantWalk C) : Prop where
  only : ∀ c m, (c, m) ∈ s.marks → m = .stale ∨ (m = .result ∧ c ∈ array)
  sound : ∀ c, (c, .stale) ∈ s.marks → ¬ Independent dag array c
  path : ∀ c, (c, .stale) ∈ s.marks → ∃ start ∈ walkStart, FlaggedPath dag [.stale] s.marks start c
  dropped : ∀ c ∈ array, (c, .result) ∉ s.marks → (c, .stale) ∈ s.marks
  count : s.countStillIndependent = ({c | (c, Mark.result) ∈ s.marks} : Finset C).card

/-- The invariant of the walk: a stale commit that is not on the stack has handed the flag to its
parents, unless its generation is below the lowest one of the candidates. -/
structure WalkInv (dag : CommitDag C) (array walkStart sortedArray : List C) (s : RedundantWalk C) : Prop
    extends WalkMarks dag array walkStart s where
  stack : ∀ c ∈ s.stack, (c, .stale) ∈ s.marks
  handed : ∀ c, (c, .stale) ∈ s.marks → c ∉ s.stack → s.minGeneration ≤ dag.generation c →
    ∀ p ∈ dag.parents c, (p, .stale) ∈ s.marks
  sorted : ∃ before lowest rest, sortedArray = before ++ s.sorted ∧ s.sorted = lowest :: rest ∧
    s.minGeneration = dag.generation lowest ∧ ∀ c ∈ before, (c, .stale) ∈ s.marks

variable {s : RedundantWalk C}

lemma WalkMarks.add (h : WalkMarks dag array walkStart s) {p : C} (hred : ¬ Independent dag array p)
    (hpath : p ∈ walkStart ∨ ∃ c, (c, .stale) ∈ s.marks ∧ p ∈ dag.parents c) (stack : List C) :
    WalkMarks dag array walkStart { s with marks := insert (p, .stale) s.marks, stack := stack } := by
  have hmem : ∀ {c m}, (c, m) ∈ insert (p, Mark.stale) s.marks ↔ (c = p ∧ m = .stale) ∨ (c, m) ∈ s.marks := by
    intro c m
    simp [Finset.mem_insert]
  have hgrow : ∀ {start c}, FlaggedPath dag [.stale] s.marks start c →
      FlaggedPath dag [.stale] (insert (p, Mark.stale) s.marks) start c :=
    fun hp => hp.grow (Finset.subset_insert _ _)
  have hflag : Flagged [.stale] (insert (p, Mark.stale) s.marks) p :=
    ⟨.stale, List.mem_singleton.mpr rfl, Finset.mem_insert_self ..⟩
  refine ⟨fun c m hc => ?_, fun c hc => ?_, fun c hc => ?_, fun c hc hres => ?_, ?_⟩
  · obtain ⟨-, rfl⟩ | hc := hmem.mp hc
    · exact .inl rfl
    · exact h.only c m hc
  · obtain ⟨rfl, -⟩ | hc := hmem.mp hc
    · exact hred
    · exact h.sound c hc
  · obtain ⟨rfl, -⟩ | hc := hmem.mp hc
    · obtain hp | ⟨d, hd, hp⟩ := hpath
      · exact ⟨c, hp, .refl hflag⟩
      · obtain ⟨start, hstart, hd⟩ := h.path d hd
        exact ⟨start, hstart, (hgrow hd).tail hp hflag⟩
    · obtain ⟨start, hstart, hc⟩ := h.path c hc
      exact ⟨start, hstart, hgrow hc⟩
  · exact hmem.mpr (.inr (h.dropped c hc fun hin => hres (hmem.mpr (.inr hin))))
  · rw [h.count]
    congr 1
    ext c
    simp [hmem]

lemma WalkMarks.drop (h : WalkMarks dag array walkStart s) {c : C} (hstale : (c, .stale) ∈ s.marks)
    (hres : (c, .result) ∈ s.marks) : WalkMarks dag array walkStart (dropResult s c) := by
  have hmem : ∀ {d m}, (d, m) ∈ s.marks.erase (c, Mark.result) ↔ ¬ (d = c ∧ m = .result) ∧ (d, m) ∈ s.marks := by
    intro d m
    simp [Finset.mem_erase]
  have hstaleIff : ∀ {d}, (d, Mark.stale) ∈ s.marks.erase (c, Mark.result) ↔ (d, .stale) ∈ s.marks := by
    intro d
    simp
  refine ⟨fun d m hd => h.only d m (hmem.mp hd).2, fun d hd => h.sound d (hstaleIff.mp hd), fun d hd => ?_,
    fun d hd hnot => ?_, ?_⟩
  · obtain ⟨start, hstart, hp⟩ := h.path d (hstaleIff.mp hd)
    refine ⟨start, hstart, hp.mono fun e he _ => ?_⟩
    obtain ⟨m, hm, hin⟩ := he.flagged
    obtain rfl := List.mem_singleton.mp hm
    exact ⟨_, hm, hstaleIff.mpr hin⟩
  · refine hstaleIff.mpr ?_
    by_cases hdc : d = c
    · rw [hdc]
      exact hstale
    · exact h.dropped d hd fun hin => hnot (hmem.mpr ⟨fun heq => hdc heq.1, hin⟩)
  · have herase : ({d | (d, Mark.result) ∈ (dropResult s c).marks} : Finset C) =
        ({d | (d, Mark.result) ∈ s.marks} : Finset C).erase c := by
      ext d
      simp [dropResult]
    have hc : c ∈ ({d | (d, Mark.result) ∈ s.marks} : Finset C) := by simpa using hres
    rw [herase, Finset.card_erase_of_mem hc, ← h.count]
    rfl

lemma WalkInv.drop (h : WalkInv dag array walkStart sortedArray s) {c : C} (hstale : (c, .stale) ∈ s.marks)
    (hres : (c, .result) ∈ s.marks) : WalkInv dag array walkStart sortedArray (dropResult s c) := by
  have hstaleIff : ∀ {d}, (d, Mark.stale) ∈ (dropResult s c).marks ↔ (d, .stale) ∈ s.marks := by
    intro d
    simp [dropResult]
  refine ⟨h.toWalkMarks.drop hstale hres, fun d hd => hstaleIff.mpr (h.stack d hd), fun d hd hst hgen p hp => ?_, ?_⟩
  · exact hstaleIff.mpr (h.handed d (hstaleIff.mp hd) hst hgen p hp)
  · obtain ⟨before, lowest, rest, hsplit, hsorted, hmin, hbefore⟩ := h.sorted
    exact ⟨before, lowest, rest, hsplit, hsorted, hmin, fun d hd => hstaleIff.mpr (hbefore d hd)⟩

omit [Fintype C] in
lemma skipStale_split (marks : Marks C) (lowest : C) (rest : List C) :
    ∃ skipped lowest' rest', lowest :: rest = skipped ++ skipStale marks (lowest :: rest) ∧
      skipStale marks (lowest :: rest) = lowest' :: rest' ∧ ∀ c ∈ skipped, (c, .stale) ∈ marks := by
  induction rest generalizing lowest with
  | nil => exact ⟨[], lowest, [], rfl, rfl, by simp⟩
  | cons next rest ih =>
    rw [skipStale]
    split_ifs with hstale
    · obtain ⟨skipped, lowest', rest', hsplit, hskip, hskipped⟩ := ih next
      refine ⟨lowest :: skipped, lowest', rest', by rw [List.cons_append, ← hsplit], hskip, ?_⟩
      intro c hc
      cases hc with
      | head => exact hstale
      | tail _ hc => exact hskipped c hc
    · exact ⟨[], lowest, next :: rest, rfl, rfl, by simp⟩

lemma WalkInv.raise (h : WalkInv dag array walkStart sortedArray s)
    (hasc : sortedArray.Pairwise (fun a b => dag.generation a ≤ dag.generation b)) (c : C) :
    WalkInv dag array walkStart sortedArray (raiseMinGeneration dag s c) := by
  obtain ⟨before, lowest, rest, hsplit, hsorted, hmin, hbefore⟩ := h.sorted
  unfold raiseMinGeneration
  split_ifs with hhead
  · obtain ⟨skipped, lowest', rest', hskipped, hskip, hstale⟩ := skipStale_split s.marks lowest rest
    have hraise : s.minGeneration ≤ dag.generation lowest' := by
      rw [hsplit, hsorted, hskipped, hskip] at hasc
      have hlow := (List.pairwise_append.mp hasc).2.1
      rw [hmin]
      cases skipped with
      | nil =>
        rw [List.nil_append, hskip] at hskipped
        rw [(List.cons.inj hskipped).1]
      | cons first skipped =>
        rw [List.cons_append] at hskipped hlow
        obtain rfl := (List.cons.inj hskipped).1
        exact (List.pairwise_cons.mp hlow).1 lowest' (by simp)
    simp only [hsorted, hskip, List.head?_cons, Option.map_some, Option.getD_some]
    refine ⟨⟨h.only, h.sound, h.path, h.dropped, h.count⟩, h.stack, fun d hd hst hgen => h.handed d hd hst (hraise.trans hgen), ?_⟩
    refine ⟨before ++ skipped, lowest', rest', ?_, rfl, rfl, fun d hd => ?_⟩
    · rw [hsplit, hsorted, List.append_assoc, ← hskip, ← hskipped]
    · obtain hd | hd := List.mem_append.mp hd
      · exact hbefore d hd
      · exact hstale d hd
  · exact h

lemma WalkInv.parents (h : WalkInv dag array walkStart sortedArray s) {c : C} {stack : List C}
    (hstack : s.stack = c :: stack) : WalkInv dag array walkStart sortedArray (walkParents dag s c stack) := by
  have hc : (c, Mark.stale) ∈ s.marks := h.stack c (by simp [hstack])
  have hpop : (s.minGeneration ≤ dag.generation c → ∀ p ∈ dag.parents c, (p, .stale) ∈ s.marks) →
      WalkInv dag array walkStart sortedArray { s with stack := stack } := by
    intro hparents
    refine ⟨⟨h.only, h.sound, h.path, h.dropped, h.count⟩, fun d hd => h.stack d (by simp [hstack, hd]),
      fun d hd hst hgen => ?_, h.sorted⟩
    by_cases hdc : d = c
    · subst hdc
      exact hparents hgen
    · refine h.handed d hd ?_ hgen
      rw [hstack, List.mem_cons, not_or]
      exact ⟨hdc, hst⟩
  unfold walkParents
  split_ifs with hlow
  · exact hpop fun hle => absurd hlow (not_lt.mpr hle)
  · split
    · rename_i hnone
      refine hpop fun _ p hp => ?_
      simpa using List.find?_eq_none.mp hnone p hp
    · rename_i p hfind
      have hp : p ∈ dag.parents c := List.mem_of_find?_eq_some hfind
      have hred : ¬ Independent dag array p := by
        have := h.sound c hc
        simp only [Independent, not_forall, not_not] at this ⊢
        obtain ⟨d, hd, hlt⟩ := this
        exact ⟨d, hd, hlt.of_reaches_right (Relation.ReflTransGen.single hp)⟩
      refine ⟨h.toWalkMarks.add hred (.inr ⟨c, hc, hp⟩) _, fun d hd => ?_, fun d hd hst hgen q hq => ?_, ?_⟩
      · cases hd with
        | head => exact Finset.mem_insert_self ..
        | tail _ hd => exact Finset.mem_insert_of_mem (h.stack d (hstack ▸ hd))
      · rw [List.mem_cons, not_or, ← hstack] at hst
        obtain hd | hd := Finset.mem_insert.mp hd
        · exact absurd (Prod.mk.inj hd).1 hst.1
        · exact Finset.mem_insert_of_mem (h.handed d hd hst.2 hgen q hq)
      · obtain ⟨before, lowest, rest, hsplit, hsorted, hmin, hbefore⟩ := h.sorted
        exact ⟨before, lowest, rest, hsplit, hsorted, hmin, fun d hd => Finset.mem_insert_of_mem (hbefore d hd)⟩

omit [Fintype C] in
lemma stale_walkParents {marks : Marks C} {c : C} {stack : List C} {s : RedundantWalk C} (hs : s.marks = marks)
    {d : C} (hd : (d, .stale) ∈ marks) : (d, .stale) ∈ (walkParents dag s c stack).marks := by
  unfold walkParents
  split_ifs
  · exact hs ▸ hd
  · split
    · exact hs ▸ hd
    · exact Finset.mem_insert_of_mem (hs ▸ hd)

/-- What the rounds of the inner loop keep: the walk goes on with one candidate left at least, or
all stale commits have handed on the flag. -/
def WalkEnd (dag : CommitDag C) (array walkStart sortedArray : List C) (done : C → Prop)
    (s : RedundantWalk C) : Prop :=
  WalkMarks dag array walkStart s ∧ (s.countStillIndependent ≤ 1 ∨
    (WalkInv dag array walkStart sortedArray s ∧ s.stack = [] ∧ ∀ c, done c → (c, .stale) ∈ s.marks))

lemma walkFrom_end (hasc : sortedArray.Pairwise (fun a b => dag.generation a ≤ dag.generation b))
    {done : C → Prop} (h : WalkEnd dag array walkStart sortedArray done s) {start : C} (hstart : start ∈ walkStart)
    (hred : ¬ Independent dag array start) :
    WalkEnd dag array walkStart sortedArray (fun c => c = start ∨ done c) (walkFrom dag s start) := by
  obtain ⟨hmarks, hfew | ⟨hinv, hstack, hdone⟩⟩ := h
  · rw [walkFrom, if_neg (by omega)]
    exact ⟨hmarks, .inl hfew⟩
  by_cases hmany : 1 < s.countStillIndependent
  · rw [walkFrom, if_pos hmany]
    have hput : WalkInv dag array walkStart sortedArray
        { s with marks := insert (start, .stale) s.marks, stack := [start] } := by
      refine ⟨hmarks.add hred (.inl hstart) _, fun c hc => ?_, fun c hc hst hgen p hp => ?_, ?_⟩
      · rw [List.mem_singleton.mp hc]
        exact Finset.mem_insert_self ..
      · obtain hc | hc := Finset.mem_insert.mp hc
        · exact absurd (List.mem_singleton.mpr (Prod.mk.inj hc).1) hst
        · exact Finset.mem_insert_of_mem (hinv.handed c hc (by simp [hstack]) hgen p hp)
      · obtain ⟨before, lowest, rest, hsplit, hsorted, hmin, hbefore⟩ := hinv.sorted
        exact ⟨before, lowest, rest, hsplit, hsorted, hmin, fun c hc => Finset.mem_insert_of_mem (hbefore c hc)⟩
    refine loop_inv _ _ (redundantStep_size dag)
      (fun s => WalkInv dag array walkStart sortedArray s ∧ ∀ c, c = start ∨ done c → (c, .stale) ∈ s.marks)
      (WalkEnd dag array walkStart sortedArray (fun c => c = start ∨ done c)) ?_ ?_ ⟨hput, fun c hc => ?_⟩
    · intro s s' hs hstep
      obtain ⟨hs, hall⟩ := hs
      unfold redundantStep at hstep
      split at hstep
      · cases hstep
      · rename_i c stack hst
        dsimp only at hstep
        have hc : (c, Mark.stale) ∈ s.marks := hs.stack c (by simp [hst])
        split_ifs at hstep with hres hfew
        · obtain rfl := Sum.inl.inj hstep
          have hrest := raiseMinGeneration_rest dag (dropResult s c) c
          refine ⟨((hs.drop hc hres).raise hasc c).parents (hrest.2.1.trans hst), fun d hd => ?_⟩
          exact stale_walkParents hrest.1 (by simpa [dropResult] using hall d hd)
        · obtain rfl := Sum.inl.inj hstep
          exact ⟨hs.parents hst, fun d hd => stale_walkParents rfl (hall d hd)⟩
    · intro s r hs hstep
      obtain ⟨hs, hall⟩ := hs
      unfold redundantStep at hstep
      split at hstep
      · rename_i hst
        obtain rfl := Sum.inr.inj hstep
        exact ⟨hs.toWalkMarks, .inr ⟨hs, hst, hall⟩⟩
      · rename_i c stack hst
        dsimp only at hstep
        have hc : (c, Mark.stale) ∈ s.marks := hs.stack c (by simp [hst])
        split_ifs at hstep with hres hfew
        obtain rfl := Sum.inr.inj hstep
        have hdrop := hs.toWalkMarks.drop hc hres
        exact ⟨⟨hdrop.only, hdrop.sound, hdrop.path, hdrop.dropped, hdrop.count⟩, .inl hfew⟩
    · obtain rfl | hc := hc
      · exact Finset.mem_insert_self ..
      · exact Finset.mem_insert_of_mem (hdone c hc)
  · rw [walkFrom, if_neg hmany]
    exact ⟨hmarks, .inl (by omega)⟩

lemma walkFrom_all (hasc : sortedArray.Pairwise (fun a b => dag.generation a ≤ dag.generation b))
    (starts : List C) {done : C → Prop} (h : WalkEnd dag array walkStart sortedArray done s)
    (hstarts : ∀ c ∈ starts, c ∈ walkStart ∧ ¬ Independent dag array c) :
    WalkEnd dag array walkStart sortedArray (fun c => c ∈ starts ∨ done c) (starts.foldl (walkFrom dag) s) := by
  induction starts generalizing s done with
  | nil => simpa using h
  | cons start starts ih =>
    obtain ⟨hstart, hred⟩ := hstarts start (List.mem_cons_self ..)
    have hrest := ih (walkFrom_end hasc h hstart hred) fun c hc => hstarts c (List.mem_cons_of_mem _ hc)
    rw [List.foldl_cons]
    obtain ⟨hmarks, hfew | ⟨hinv, hstack, hdone⟩⟩ := hrest
    · exact ⟨hmarks, .inl hfew⟩
    · refine ⟨hmarks, .inr ⟨hinv, hstack, fun c hc => hdone c ?_⟩⟩
      simp only [List.mem_cons] at hc
      tauto

omit [Fintype C] in
lemma markParents_spec (parents : List C) (t : Marks C × List C) (hlist : ∀ p, (p, .stale) ∈ t.1 ↔ p ∈ t.2) :
    (∀ p, p ∈ (markParents t parents).2 ↔ p ∈ t.2 ∨ p ∈ parents) ∧
      ∀ p m, (p, m) ∈ (markParents t parents).1 ↔ if m = .stale then p ∈ (markParents t parents).2 else (p, m) ∈ t.1 := by
  induction parents generalizing t with
  | nil =>
    refine ⟨by simp [markParents], fun p m => ?_⟩
    split_ifs with hm
    · rw [hm]
      exact hlist p
    · rfl
  | cons p parents ih =>
    have hmark : markParents t (p :: parents) =
        markParents (if (p, .stale) ∈ t.1 then t else (insert (p, .stale) t.1, t.2 ++ [p])) parents := rfl
    rw [hmark]
    split_ifs with hp
    · obtain ⟨hmem, hmarks⟩ := ih t hlist
      refine ⟨fun q => ?_, hmarks⟩
      rw [hmem, List.mem_cons]
      have := (hlist p).mp hp
      constructor
      · tauto
      · rintro (hq | rfl | hq) <;> tauto
    · obtain ⟨hmem, hmarks⟩ := ih (insert (p, .stale) t.1, t.2 ++ [p]) fun q => by
        simp [hlist, or_comm]
      refine ⟨fun q => ?_, fun q m => ?_⟩
      · rw [hmem]
        simp only [List.mem_append, List.mem_cons, List.not_mem_nil, or_false]
        tauto
      · rw [hmarks]
        split_ifs with hm
        · rfl
        · simp [hm]

omit [Fintype C] in
lemma markArray_spec (dag : CommitDag C) (array : List C) :
    (∀ p, p ∈ (markArray dag ∅ array).2 ↔ ∃ c ∈ array, p ∈ dag.parents c) ∧
      ∀ c m, (c, m) ∈ (markArray dag ∅ array).1 ↔
        (m = .stale ∧ c ∈ (markArray dag ∅ array).2) ∨ (m = .result ∧ c ∈ array) := by
  have hfold : ∀ (rest before : List C) (t : Marks C × List C),
      (∀ p, p ∈ t.2 ↔ ∃ c ∈ before, p ∈ dag.parents c) →
      (∀ c m, (c, m) ∈ t.1 ↔ (m = .stale ∧ c ∈ t.2) ∨ (m = .result ∧ c ∈ before)) →
      let t' := rest.foldl (fun s c => markParents (insert (c, .result) s.1, s.2) (dag.parents c)) t
      (∀ p, p ∈ t'.2 ↔ ∃ c ∈ before ++ rest, p ∈ dag.parents c) ∧
        ∀ c m, (c, m) ∈ t'.1 ↔ (m = .stale ∧ c ∈ t'.2) ∨ (m = .result ∧ c ∈ before ++ rest) := by
    intro rest
    induction rest with
    | nil =>
      intro before t hlist hmarks
      simpa using ⟨hlist, hmarks⟩
    | cons c rest ih =>
      intro before t hlist hmarks
      obtain ⟨hmem, hmark⟩ := markParents_spec (dag.parents c) (insert (c, .result) t.1, t.2) fun p => by
        simp [hmarks]
      have := ih (before ++ [c]) (markParents (insert (c, .result) t.1, t.2) (dag.parents c)) ?_ ?_
      · simpa using this
      · intro p
        rw [hmem, hlist]
        simp only [List.mem_append, List.mem_singleton]
        constructor
        · rintro (⟨d, hd, hp⟩ | hp)
          · exact ⟨d, .inl hd, hp⟩
          · exact ⟨c, .inr rfl, hp⟩
        · rintro ⟨d, hd | rfl, hp⟩
          · exact .inl ⟨d, hd, hp⟩
          · exact .inr hp
      · intro d m
        rw [hmark]
        split_ifs with hm
        · simp [hm]
        · simp only [Finset.mem_insert, Prod.mk.injEq, hmarks, List.mem_append, List.mem_singleton, hm, false_and,
            false_or]
          tauto
  exact hfold array [] (∅, []) (by simp) (by simp)

omit [Fintype C] in
lemma mem_foldl_erase (cs : List C) (m : Mark) (marks : Marks C) (d : C) (m' : Mark) :
    (d, m') ∈ cs.foldl (fun marks c => marks.erase (c, m)) marks ↔ (d, m') ∈ marks ∧ ¬ (m' = m ∧ d ∈ cs) := by
  induction cs generalizing marks with
  | nil => simp
  | cons c cs ih =>
    rw [List.foldl_cons, ih, Finset.mem_erase, List.mem_cons]
    simp only [ne_eq, Prod.mk.injEq]
    tauto

lemma WalkEnd.not_stale_iff (h : WalkEnd dag array walkStart sortedArray (fun c => c ∈ walkStart) s)
    (hasc : sortedArray.Pairwise (fun a b => dag.generation a ≤ dag.generation b))
    (hsorted : ∀ c, c ∈ sortedArray ↔ c ∈ array) (hwalk : ∀ p, p ∈ walkStart ↔ ∃ c ∈ array, p ∈ dag.parents c)
    {c : C} (hc : c ∈ array) : (c, .stale) ∉ s.marks ↔ Independent dag array c := by
  obtain ⟨hmarks, hrest⟩ := h
  refine ⟨fun hnot => ?_, fun hind hstale => hmarks.sound c hstale hind⟩
  have hres : ∀ d ∈ array, (d, Mark.stale) ∉ s.marks → (d, Mark.result) ∈ s.marks := by
    intro d hd hst
    by_contra hno
    exact hst (hmarks.dropped d hd hno)
  obtain hfew | ⟨hinv, hstack, hdone⟩ := hrest
  · -- one candidate is left, and an independent commit is always one
    obtain ⟨m, hm, -, hind⟩ := @exists_independent _ dag _ _ _ hc
    have hmres := hres m hm fun hst => hmarks.sound m hst hind
    rw [hmarks.count] at hfew
    have := Finset.card_le_one.mp hfew c (by simpa using hres c hc hnot) m (by simpa using hmres)
    rwa [this]
  · by_contra hred
    obtain ⟨before, lowest, rest, hsplit, hlow, hmin, hbefore⟩ := hinv.sorted
    have hgen : s.minGeneration ≤ dag.generation c := by
      have hcs := (hsorted c).mpr hc
      rw [hsplit, List.mem_append] at hcs
      obtain hcs | hcs := hcs
      · exact absurd (hbefore c hcs) hnot
      · rw [hsplit] at hasc
        have hasc := (List.pairwise_append.mp hasc).2.1
        rw [hlow] at hasc hcs
        rw [hmin]
        cases hcs with
        | head => exact le_rfl
        | tail _ hcs => exact (List.pairwise_cons.mp hasc).1 c hcs
    simp only [Independent, not_forall, not_not] at hred
    obtain ⟨d, hd, hlt⟩ := hred
    obtain ⟨p, hp, hreach⟩ := Relation.TransGen.head'_iff.mp hlt
    have hpstale : (p, Mark.stale) ∈ s.marks := hdone p ((hwalk p).mpr ⟨d, hd, hp⟩)
    -- the flag comes down from the parent of `d`
    have hdown : ∀ e, Reaches dag p e → Reaches dag e c → (e, Mark.stale) ∈ s.marks := by
      intro e he
      induction he with
      | refl => exact fun _ => hpstale
      | tail _ hstep ih =>
        rename_i e f _
        intro hf
        have hec : Reaches dag e c := Relation.ReflTransGen.head hstep hf
        exact hinv.handed e (ih hec) (by simp [hstack]) (hgen.trans (generation_le_of_reaches hec)) f hstep
    exact hnot (hdown c hreach .refl)

theorem removeRedundantWithGen_keeps (dag : CommitDag C) (hnodup : array.Nodup) (hne : array ≠ []) :
    ∃ kept, removeRedundantWithGen dag ∅ array = some (∅, kept) ∧ Keeps dag array kept := by
  set sortedArray := array.insertionSort (compareCommitsByGen dag) with hsortedArray
  have hsorted : ∀ c, c ∈ sortedArray ↔ c ∈ array := fun c => List.mem_insertionSort _
  have hasc : sortedArray.Pairwise (fun a b => dag.generation a ≤ dag.generation b) := by
    have htotal : Std.Total (compareCommitsByGen dag) := ⟨fun a b => by
      simp only [compareCommitsByGen]
      omega⟩
    have htrans : IsTrans C (compareCommitsByGen dag) := ⟨fun a b c hab hbc => by
      simp only [compareCommitsByGen] at hab hbc ⊢
      omega⟩
    refine (List.pairwise_insertionSort (compareCommitsByGen dag) array).imp fun {a b} hab => ?_
    simp only [compareCommitsByGen] at hab
    omega
  obtain ⟨lowest, rest, hlow⟩ : ∃ lowest rest, sortedArray = lowest :: rest := by
    cases hs : sortedArray with
    | nil =>
      obtain ⟨c, hc⟩ := List.exists_mem_of_ne_nil array hne
      have := (hsorted c).mpr hc
      simp [hs] at this
    | cons lowest rest => exact ⟨lowest, rest, rfl⟩
  obtain ⟨hstarts, hmarked⟩ := markArray_spec dag array
  set walkStart := (markArray dag ∅ array).2.insertionSort (compareCommitsByGen dag) with hwalkStart
  have hwalk : ∀ p, p ∈ walkStart ↔ ∃ c ∈ array, p ∈ dag.parents c :=
    fun p => (List.mem_insertionSort _).trans (hstarts p)
  set unmarked := walkStart.foldl (fun marks c => marks.erase (c, Mark.stale)) (markArray dag ∅ array).1
    with hunmarked
  have hmem : ∀ c m, (c, m) ∈ unmarked ↔ m = .result ∧ c ∈ array := by
    intro c m
    rw [hunmarked, mem_foldl_erase, hmarked, hwalk, hstarts]
    constructor
    · rintro ⟨⟨rfl, hc⟩ | hres, hnot⟩
      · exact absurd ⟨rfl, hc⟩ hnot
      · exact hres
    · rintro ⟨rfl, hc⟩
      exact ⟨.inr ⟨rfl, hc⟩, by simp⟩
  have hred : ∀ p ∈ walkStart, ¬ Independent dag array p := by
    intro p hp hind
    obtain ⟨c, hc, hpc⟩ := (hwalk p).mp hp
    exact hind c hc (properAncestor_of_parent hpc .refl)
  have hinv : WalkInv dag array walkStart sortedArray
      ⟨unmarked, [], array.length, sortedArray, dag.generation lowest⟩ := by
    refine ⟨⟨fun c m hc => .inr ((hmem c m).mp hc), fun c hc => ?_, fun c hc => ?_, fun c hc hres => ?_, ?_⟩,
      by simp, fun c hc => ?_, [], lowest, rest, rfl, hlow, rfl, by simp⟩
    · simp [hmem] at hc
    · simp [hmem] at hc
    · exact absurd ((hmem c _).mpr ⟨rfl, hc⟩) hres
    · have : ({c | (c, Mark.result) ∈ unmarked} : Finset C) = array.toFinset := by
        ext c
        simp [hmem]
      simp only [this, List.toFinset_card_of_nodup hnodup]
    · simp [hmem] at hc
  have hend := @walkFrom_all _ _ _ _ _ _ _ _ hasc walkStart.reverse (fun _ => False)
    ⟨hinv.toWalkMarks, .inr ⟨hinv, rfl, fun _ hc => hc.elim⟩⟩
    fun c hc => ⟨List.mem_reverse.mp hc, hred c (List.mem_reverse.mp hc)⟩
  simp only [List.mem_reverse, or_false] at hend
  set s := walkStart.reverse.foldl (walkFrom dag) ⟨unmarked, [], array.length, sortedArray, dag.generation lowest⟩
    with hs
  set cleared := array.foldl (fun marks c => marks.erase (c, Mark.result)) s.marks with hcleared
  have hclear : ∀ c m, (c, m) ∈ cleared ↔ m = .stale ∧ (c, .stale) ∈ s.marks := by
    intro c m
    rw [hcleared, mem_foldl_erase]
    constructor
    · rintro ⟨hc, hnot⟩
      obtain rfl | hres := hend.1.only c m hc
      · exact ⟨rfl, hc⟩
      · exact absurd hres hnot
    · rintro ⟨rfl, hc⟩
      exact ⟨hc, by simp⟩
  refine ⟨array.filter (fun c => (c, .stale) ∉ cleared), ?_, List.filter_sublist, fun c => ?_⟩
  · have hrun : removeRedundantWithGen dag ∅ array =
        some (clearCommitMarksMany dag [.stale] cleared walkStart, array.filter (fun c => (c, .stale) ∉ cleared)) := by
      unfold removeRedundantWithGen
      rw [← hsortedArray, hlow]
      simp only [← hwalkStart, ← hunmarked, hcleared, hs, hlow]
    rw [hrun]
    congr 2
    refine Finset.eq_empty_of_forall_notMem fun ⟨c, m⟩ hc => ?_
    have hpath : ∀ d, Flagged [.stale] cleared d → ∃ c ∈ walkStart, FlaggedPath dag [.stale] cleared c d := by
      rintro d ⟨m, hm, hd⟩
      obtain ⟨start, hstart, hp⟩ := hend.1.path d ((hclear d m).mp hd).2
      refine ⟨start, hstart, hp.mono fun e he _ => ?_⟩
      obtain ⟨m', hm', he⟩ := he.flagged
      obtain rfl := List.mem_singleton.mp hm'
      exact ⟨_, hm', (hclear e _).mpr ⟨rfl, he⟩⟩
    obtain ⟨hc, hm⟩ := (mem_clearCommitMarksMany hpath).mp hc
    rw [((hclear c m).mp hc).1] at hm
    simp at hm
  · rw [List.mem_filter, decide_eq_true_eq]
    refine and_congr_right fun hc => ?_
    rw [← hend.not_stale_iff hasc hsorted hwalk hc, hclear]
    simp

end WithGen

theorem removeRedundant_keeps (dag : CommitDag C) (generationNumbersEnabled correctedCommitDatesEnabled : Bool)
    {array : List C} (hnodup : array.Nodup) :
    ∃ kept, removeRedundant dag generationNumbersEnabled correctedCommitDatesEnabled ∅ array = some (∅, kept) ∧
      Keeps dag array kept := by
  unfold removeRedundant
  split_ifs with hgen
  · obtain ⟨-, c, hc, -⟩ := hgen
    exact removeRedundantWithGen_keeps dag hnodup (List.ne_nil_of_mem hc)
  · exact removeRedundantNoGen_keeps dag correctedCommitDatesEnabled hnodup

end GitCore.Reach
