import GitCore.Xdiff.Compact

/-!
# Compacting keeps the marking

The two group cursors stay in step, so no `BUG` is reached, the lines without a flag stay pairwise
equal and no file gets more flags.
-/

namespace GitCore.Xdiff

namespace Cursors

structure Synced (s : Cursors) : Prop where
  group : IsGroup s.xdf s.g
  other : IsGroup s.xdfo s.go
  same : SameLines s.xdf.unchanged s.xdfo.unchanged
  index : s.xdf.index s.g.start = s.xdfo.index s.go.start

structure Moved (s s' : Cursors) : Prop where
  grown : Grown s s'
  behind : s'.xdf.flaggedFrom s'.g.stop ≤ s.xdf.flaggedFrom s.g.stop

lemma Moved.refl (s : Cursors) : Moved s s := ⟨Grown.refl s, le_rfl⟩

lemma Moved.trans {s s' s'' : Cursors} (h : Moved s s') (h' : Moved s' s'') : Moved s s'' :=
  ⟨h.grown.trans h'.grown, h'.behind.trans h.behind⟩

variable {s s' : Cursors}

lemma size_pos : 0 < s.size ↔ s.g.start < s.g.stop := by
  rw [size, XdlGroup.size]
  omega

lemma Moved.size_pos (h : Moved s s') (hpos : 0 < s.size) : 0 < s'.size := lt_of_lt_of_le hpos h.grown.size

lemma Synced.slideUp (h : s.Synced) (hpos : 0 < s.size) :
    s.slideUp = none ∨ ∃ s', s.slideUp = some (some s') ∧ s'.Synced ∧ Moved s s' := by
  rw [Cursors.size_pos] at hpos
  cases hslide : groupSlideUp s.xdf s.g with
  | none => exact .inl (by rw [Cursors.slideUp, hslide, Option.map_none])
  | some slid =>
    obtain ⟨xdf', g'⟩ := slid
    obtain ⟨hgroup, hindex, hbehind⟩ := isGroup_slideUp h.group hpos hslide
    have hslid := (slid_of_slideUp h.group hpos hslide).2.1
    have hother : 0 < s.go.start := by
      by_contra hzero
      have hsync := h.index
      rw [Nat.eq_zero_of_not_pos hzero, index_zero] at hsync
      omega
    obtain ⟨go, hgo, hgroupo, hindexo⟩ := groupPrevious_spec h.other hother
    have heq : s.slideUp = some (some { s with xdf := xdf', g := g', go := go }) := by
      rw [Cursors.slideUp, hslide, Option.map_some, hgo, Option.map_some]
    refine .inr ⟨_, heq, ⟨hgroup, hgroupo, hslid.unchanged.symm.trans h.same, ?_⟩, grown_slideUp heq, hbehind.le⟩
    have hsync := h.index
    dsimp only
    omega

lemma Synced.slideDown (h : s.Synced) (hpos : 0 < s.size) :
    s.slideDown = none ∨ ∃ s', s.slideDown = some (some s') ∧ s'.Synced ∧ Moved s s' := by
  rw [Cursors.size_pos] at hpos
  cases hslide : groupSlideDown s.xdf s.g with
  | none => exact .inl (by rw [Cursors.slideDown, hslide, Option.map_none])
  | some slid =>
    obtain ⟨xdf', g'⟩ := slid
    obtain ⟨hgroup, hindex, hbehind⟩ := isGroup_slideDown h.group hpos hslide
    have hslid := (slid_of_slideDown h.group hpos hslide).1
    have hsync := h.index
    obtain ⟨hend, -⟩ | ⟨go, hgo, hstart, hgroupo, hindexo⟩ := groupNext_spec h.other.stop_le h.other.behind
    · -- the line behind the group is paired with one of the other file
      have hlines := h.same.length
      have hlt : s.g.stop < s.xdf.nrec := hslid.nrec ▸ hslid.lt_nrec
      have hcount := h.group.index_succ_stop hlt
      have hmono := @index_mono s.xdf (s.g.stop + 1) s.xdf.nrec hlt le_rfl
      have hindexo := h.other.index_stop
      rw [hend, index_nrec] at hindexo
      rw [index_nrec] at hmono
      omega
    · have heq : s.slideDown = some (some { s with xdf := xdf', g := g', go := go }) := by
        rw [Cursors.slideDown, hslide, Option.map_some, hgo, Option.map_some]
      refine .inr ⟨_, heq, ⟨hgroup, hgroupo, hslid.unchanged.trans h.same, ?_⟩, grown_slideDown heq, hbehind⟩
      have hstopo := h.other.index_stop
      dsimp only
      omega

lemma Synced.slideUp_slideDown (h : s.Synced) (hpos : 0 < s.size) (hdown : s.slideDown = some (some s'))
    (hsize : s'.size = s.size) : s'.slideUp = some (some s) := by
  obtain ⟨hslide, hnext, hxdfo⟩ := slideDown_eq hdown
  have hne := Cursors.size_pos.mp hpos
  obtain ⟨hslid, hg⟩ := slid_of_slideDown h.group hne hslide
  have hsync : s'.Synced := by
    obtain hnone | ⟨t, ht, hsync, -⟩ := h.slideDown hpos
    · rw [hnone] at hdown
      cases hdown
    · rw [hdown] at ht
      cases ht
      exact hsync
  have hg' : s'.g = ⟨s.g.start + 1, s.g.stop + 1⟩ := by
    have hle := @le_groupEnd s'.xdf (s.g.stop + 1)
    rw [size, size, hg] at hsize
    dsimp only [XdlGroup.size] at hsize
    rw [hg, XdlGroup.mk.injEq]
    exact ⟨rfl, by omega⟩
  have hlt := hslid.lt_nrec
  have hxdf : (s'.xdf.setChanged s.g.start true).setChanged s.g.stop false = s.xdf := by
    refine eq_of_isChanged hslid.recs.symm fun i => ?_
    have hlast : s.g.stop < (s'.xdf.setChanged s.g.start true).nrec := hlt
    rw [isChanged_setChanged hlast, isChanged_setChanged (by omega)]
    split_ifs with hstop hstart
    · rw [← hstop, h.group.behind]
    · rw [h.group.flagged i hstart.le (by omega)]
    · by_cases hin : i < s.g.start ∨ s.g.stop < i
      · exact (hslid.outside i hin).symm
      · rw [hslid.flagged i (by omega) (by omega), h.group.flagged i (by omega) (by omega)]
  have hup : groupSlideUp s'.xdf s'.g = some (s.xdf, s.g) := by
    have hmatch : recsMatch (s'.xdf.line s.g.start) (s'.xdf.line s.g.stop) = true := hslid.same
    rw [hg', groupSlideUp]
    dsimp only
    rw [Nat.add_sub_cancel, Nat.add_sub_cancel, if_pos ⟨Nat.succ_pos _, hmatch⟩, hxdf,
      groupStart_of_not_changed _ h.group.before]
  have hprev : groupPrevious s'.xdfo s'.go = some s.go := by
    have hindex := hsync.index
    rw [hxdfo, hg'] at hindex
    obtain ⟨-, hcount, -⟩ := isGroup_slideDown h.group hne hslide
    rw [hg'] at hcount
    have hotherPos : 0 < s'.go.start := by
      by_contra hzero
      rw [Nat.eq_zero_of_not_pos hzero, index_zero] at hindex
      omega
    obtain ⟨go, hgo, hgroupo, hindexo⟩ := groupPrevious_spec hsync.other hotherPos
    rw [hgo]
    rw [hxdfo] at hgroupo hindexo
    have hsame := h.index
    rw [hgroupo.eq_of_index h.other (by omega)]
  rw [Cursors.slideUp, hup, Option.map_some, hprev, Option.map_some, hxdfo]

def Downs : Cursors → Cursors → Prop :=
  Relation.ReflTransGen fun s s' => s.Synced ∧ s.slideDown = some (some s')

lemma Downs.size_le (h : Downs s s') : s.size ≤ s'.size := by
  induction h with
  | refl => exact le_rfl
  | tail _ hstep ih => exact ih.trans (grown_slideDown hstep.2).size

lemma Downs.stop_le (h : Downs s s') : s.g.stop ≤ s'.g.stop := by
  induction h with
  | refl => exact le_rfl
  | tail _ hstep ih => exact ih.trans (groupSlideDown_lt (slideDown_eq hstep.2).1).1.le

structure Below (top s : Cursors) : Prop where
  synced : s.Synced
  downs : Downs top s
  size : s.size = top.size
  pos : 0 < top.size

lemma Below.slideUp {top : Cursors} (h : Below top s) (hne : s ≠ top) :
    ∃ t, s.slideUp = some (some t) ∧ Below top t := by
  obtain heq | ⟨t, hdowns, hsync, hstep⟩ := Relation.ReflTransGen.cases_tail h.downs
  · exact absurd heq hne
  · have hlow : top.size ≤ t.size := Downs.size_le hdowns
    have hhigh := (grown_slideDown hstep).size
    have hsize := h.size
    exact ⟨t, hsync.slideUp_slideDown (lt_of_lt_of_le h.pos hlow) hstep (by omega), hsync, hdowns, by omega, h.pos⟩

lemma Below.slideOrBug {top : Cursors} (h : Below top s) (hne : s ≠ top) (stuck lost : CompactBug) :
    ∃ t, s.slideOrBug stuck lost = .inl t ∧ Below top t ∧ Moved s t := by
  obtain ⟨t, hup, hbelow⟩ := h.slideUp hne
  obtain hnone | ⟨t', ht', -, hmoved⟩ := h.synced.slideUp (h.size ▸ h.pos)
  · rw [hnone] at hup
    cases hup
  · rw [hup] at ht'
    cases ht'
    exact ⟨t, by rw [Cursors.slideOrBug, hup], hbelow, hmoved⟩

lemma upLoop_spec (h : s.Synced) (hpos : 0 < s.size) : ∃ up, s.upLoop = .ok up ∧ up.Synced ∧ Moved s up := by
  refine loop_inv upStep _ _ (fun t => t.Synced ∧ Moved s t) (fun r => ∃ up, r = .ok up ∧ up.Synced ∧ Moved s up)
    ?_ ?_ ⟨h, Moved.refl s⟩
  · rintro t t' ⟨hsync, hmoved⟩ hstep
    obtain hnone | ⟨u, hu, husync, humoved⟩ := hsync.slideUp (hmoved.size_pos hpos)
    · rw [upStep, hnone] at hstep
      cases hstep
    · rw [upStep, hu] at hstep
      cases hstep
      exact ⟨husync, hmoved.trans humoved⟩
  · rintro t r ⟨hsync, hmoved⟩ hstep
    obtain hnone | ⟨u, hu, -, -⟩ := hsync.slideUp (hmoved.size_pos hpos)
    · rw [upStep, hnone] at hstep
      cases hstep
      exact ⟨t, rfl, hsync, hmoved⟩
    · rw [upStep, hu] at hstep
      cases hstep

def MatchOnWay (top : Cursors) (t : Cursors × Option Nat) : Prop :=
  t.2 ≠ none → ∃ mid, Downs top mid ∧ Downs mid t.1 ∧ mid.go.start < mid.go.stop

lemma matchOnWay_noteMatch {top : Cursors} {m m' : Option Nat} (h : MatchOnWay top (s, m))
    (htop : Downs top s') (hdown : Downs s s') (hm : m' = s'.noteMatch m) : MatchOnWay top (s', m') := by
  rintro hsome
  rw [noteMatch] at hm
  split_ifs at hm with hgo
  · exact ⟨s', htop, .refl, hgo⟩
  · subst hm
    obtain ⟨mid, hmid, hrest, hgo⟩ := h hsome
    exact ⟨mid, hmid, hrest.trans hdown, hgo⟩

lemma downLoop_spec (h : s.Synced) (hpos : 0 < s.size) :
    ∃ down, downLoop (s, s.noteMatch none) = .ok down ∧ down.1.Synced ∧ Moved s down.1 ∧ Downs s down.1 ∧
      MatchOnWay s down := by
  refine loop_inv downStep _ _ (fun t => t.1.Synced ∧ Moved s t.1 ∧ Downs s t.1 ∧ MatchOnWay s t)
    (fun r => ∃ down, r = .ok down ∧ down.1.Synced ∧ Moved s down.1 ∧ Downs s down.1 ∧ MatchOnWay s down) ?_ ?_ ?_
  · rintro ⟨t, m⟩ ⟨t', m'⟩ ⟨hsync, hmoved, hdowns, hmatch⟩ hstep
    obtain ⟨hslide, hm⟩ := downStep_eq hstep
    obtain hnone | ⟨u, hu, husync, humoved⟩ := hsync.slideDown (hmoved.size_pos hpos)
    · rw [hnone] at hslide
      cases hslide
    · have hdown : Downs t t' := .single ⟨hsync, hslide⟩
      rw [hslide] at hu
      cases hu
      exact ⟨husync, hmoved.trans humoved, hdowns.trans hdown,
        matchOnWay_noteMatch hmatch (hdowns.trans hdown) hdown hm⟩
  · rintro ⟨t, m⟩ r ⟨hsync, hmoved, hdowns, hmatch⟩ hstep
    obtain hnone | ⟨u, hu, -, -⟩ := hsync.slideDown (hmoved.size_pos hpos)
    · dsimp only [downStep] at hstep
      rw [hnone] at hstep
      cases hstep
      exact ⟨(t, m), rfl, hsync, hmoved, hdowns, hmatch⟩
    · dsimp only [downStep] at hstep
      rw [hu] at hstep
      cases hstep
  · have hnone : MatchOnWay s (s, none) := fun h => absurd rfl h
    exact ⟨h, Moved.refl s, .refl, matchOnWay_noteMatch hnone .refl .refl rfl⟩

/-- What a pass of the `do` loop from a group as large as `shifted.groupsize` leaves. -/
structure PassedFrom (s : Cursors) (shifted : Shifted) : Prop where
  synced : shifted.cursors.Synced
  moved : Moved s shifted.cursors
  top : ∃ top, Downs top shifted.cursors ∧ top.g.stop = shifted.earliestEnd ∧ shifted.groupsize ≤ top.size
  onWay : shifted.endMatchingOther ≠ none → ∃ mid, Downs mid shifted.cursors ∧ mid.go.start < mid.go.stop ∧
    shifted.groupsize ≤ mid.size
  pos : 0 < shifted.groupsize

lemma shiftOnce_spec (h : s.Synced) (hpos : 0 < s.size) :
    ∃ shifted, s.shiftOnce = .ok shifted ∧ PassedFrom s shifted ∧ shifted.groupsize = s.size := by
  obtain ⟨up, hup, hupSync, hupMoved⟩ := upLoop_spec h hpos
  obtain ⟨down, hdown, hsync, hmoved, hdowns, hmatch⟩ := downLoop_spec hupSync (hupMoved.size_pos hpos)
  have heq : s.shiftOnce = .ok ⟨down.1, s.size, up.g.stop, down.2⟩ := by
    rw [shiftOnce, hup]
    dsimp only
    rw [hdown]
  refine ⟨_, heq, ⟨hsync, hupMoved.trans hmoved, ⟨up, hdowns, rfl, hupMoved.grown.size⟩, fun hsome => ?_, hpos⟩, rfl⟩
  obtain ⟨mid, hbefore, hrest, hgo⟩ := hmatch hsome
  exact ⟨mid, hrest, hgo, hupMoved.grown.size.trans hbefore.size_le⟩

lemma PassedFrom.of_moved {shifted : Shifted} (hmoved : Moved s s') (h : PassedFrom s' shifted) :
    PassedFrom s shifted :=
  ⟨h.synced, hmoved.trans h.moved, h.top, h.onWay, h.pos⟩

lemma shiftLoop_spec (h : s.Synced) (hpos : 0 < s.size) :
    ∃ shifted, s.shiftLoop = .ok shifted ∧ PassedFrom s shifted ∧ shifted.groupsize = shifted.cursors.size := by
  refine loop_inv shiftStep _ _ (fun t => t.Synced ∧ Moved s t)
    (fun r => ∃ shifted, r = .ok shifted ∧ PassedFrom s shifted ∧ shifted.groupsize = shifted.cursors.size)
    ?_ ?_ ⟨h, Moved.refl s⟩
  · rintro t t' ⟨hsync, hmoved⟩ hstep
    obtain ⟨shifted, hshift, hpassed, -⟩ := shiftOnce_spec hsync (hmoved.size_pos hpos)
    rw [shiftStep, hshift] at hstep
    dsimp only at hstep
    split_ifs at hstep
    cases hstep
    exact ⟨hpassed.synced, hmoved.trans hpassed.moved⟩
  · rintro t r ⟨hsync, hmoved⟩ hstep
    obtain ⟨shifted, hshift, hpassed, -⟩ := shiftOnce_spec hsync (hmoved.size_pos hpos)
    rw [shiftStep, hshift] at hstep
    dsimp only at hstep
    split_ifs at hstep with hsize
    cases hstep
    exact ⟨shifted, rfl, hpassed.of_moved hmoved, hsize⟩

lemma Below.loop_back {top : Cursors} {stuck lost : CompactBug} (h : Below top s)
    (step : Cursors → Cursors ⊕ Except CompactBug Cursors) (size : Cursors → Nat)
    (hstep : ∀ s s', step s = .inl s' → size s' < size s) (wanted : Cursors → Prop)
    (hstop : ∀ t, wanted t → step t = .inr (.ok t)) (hgo : ∀ t, ¬ wanted t → step t = t.slideOrBug stuck lost)
    (htop : wanted top) :
    ∃ t, loop step size hstep s = .ok t ∧ t.Synced ∧ Moved s t := by
  refine loop_inv step size hstep (fun t => Below top t ∧ Moved s t) (fun r => ∃ t, r = .ok t ∧ t.Synced ∧ Moved s t)
    ?_ ?_ ⟨h, Moved.refl s⟩
  · rintro t t' ⟨hbelow, hmoved⟩ heq
    by_cases hw : wanted t
    · rw [hstop t hw] at heq
      cases heq
    · obtain ⟨u, hu, hbelow', hmoved'⟩ := hbelow.slideOrBug (fun h => hw (h ▸ htop)) stuck lost
      rw [hgo t hw, hu] at heq
      cases heq
      exact ⟨hbelow', hmoved.trans hmoved'⟩
  · rintro t r ⟨hbelow, hmoved⟩ heq
    by_cases hw : wanted t
    · rw [hstop t hw] at heq
      cases heq
      exact ⟨t, rfl, hbelow.synced, hmoved⟩
    · obtain ⟨u, hu, -⟩ := hbelow.slideOrBug (fun h => hw (h ▸ htop)) stuck lost
      rw [hgo t hw, hu] at heq
      cases heq

lemma foldl_betterShift (xdf : XdFile) (groupsize : Nat) (shifts : List Nat) (best : Int × SplitScore) :
    (shifts.foldl (betterShift xdf groupsize) best).1 = best.1 ∨
      ∃ shift ∈ shifts, (shifts.foldl (betterShift xdf groupsize) best).1 = shift := by
  induction shifts generalizing best with
  | nil => exact .inl rfl
  | cons shift shifts ih =>
    rw [List.foldl_cons]
    obtain heq | ⟨later, hmem, heq⟩ := ih (betterShift xdf groupsize best shift)
    · rw [heq, betterShift]
      split_ifs
      · exact .inr ⟨shift, List.mem_cons_self, rfl⟩
      · exact .inl rfl
    · exact .inr ⟨later, List.mem_cons_of_mem _ hmem, heq⟩

lemma Shifted.earliestEnd_le_bestShift {shifted : Shifted} (h : shifted.earliestEnd ≤ shifted.cursors.g.stop) :
    (shifted.earliestEnd : Int) ≤ shifted.bestShift := by
  have hfirst : shifted.firstShift ≤ shifted.cursors.g.stop := by
    rw [firstShift]
    omega
  have hle : shifted.earliestEnd ≤ shifted.firstShift := le_max_left _ _
  obtain ⟨n, hn⟩ : ∃ n, shifted.cursors.g.stop + 1 - shifted.firstShift = n + 1 := ⟨_, Nat.succ_sub hfirst⟩
  rw [bestShift, hn, List.range'_succ, List.foldl_cons]
  have hbest : betterShift shifted.cursors.xdf shifted.groupsize (-1, ⟨0, 0⟩) shifted.firstShift =
      (↑shifted.firstShift, shiftScore shifted.cursors.xdf shifted.groupsize shifted.firstShift) := by
    rw [betterShift]
    exact if_pos (.inl rfl)
  rw [hbest]
  obtain heq | ⟨shift, hmem, heq⟩ := foldl_betterShift shifted.cursors.xdf shifted.groupsize
    (List.range' (shifted.firstShift + 1) n) (↑shifted.firstShift,
      shiftScore shifted.cursors.xdf shifted.groupsize shifted.firstShift)
  · rw [heq]
    exact Int.ofNat_le.mpr hle
  · rw [heq]
    have := (List.mem_range'_1.mp hmem).1
    exact Int.ofNat_le.mpr (by omega)

lemma settle_spec {shifted : Shifted} (flags : UInt64) (h : PassedFrom s shifted)
    (hsize : shifted.groupsize = shifted.cursors.size) :
    ∃ t, shifted.settle flags = .ok t ∧ t.Synced ∧ Moved s t := by
  have hbelow : ∀ top, Downs top shifted.cursors → shifted.groupsize ≤ top.size → Below top shifted.cursors := by
    intro top hdowns hle
    have hge := hdowns.size_le
    have hpos := h.pos
    exact ⟨h.synced, hdowns, by omega, by omega⟩
  rw [Shifted.settle]
  split_ifs with hstay hmatch hindent
  · exact ⟨shifted.cursors, rfl, h.synced, h.moved⟩
  · obtain ⟨mid, hdowns, hgo, hle⟩ := h.onWay hmatch
    obtain ⟨t, ht, hsync, hmoved⟩ := (hbelow mid hdowns hle).loop_back matchStep (fun s => s.g.start) matchStep_lt
      (fun t => ¬ t.go.stop = t.go.start) (fun t hw => if_neg hw) (fun t hw => if_pos (not_not.mp hw)) (by omega)
    exact ⟨t, ht, hsync, h.moved.trans hmoved⟩
  · obtain ⟨top, hdowns, htop, hle⟩ := h.top
    have hbest := Shifted.earliestEnd_le_bestShift (htop ▸ hdowns.stop_le)
    obtain ⟨t, ht, hsync, hmoved⟩ := (hbelow top hdowns hle).loop_back (bestShiftStep shifted.bestShift)
      (fun s => s.g.start) (bestShiftStep_lt shifted.bestShift) (fun t => ¬ shifted.bestShift < t.g.stop)
      (fun t hw => if_neg hw) (fun t hw => if_pos (not_not.mp hw)) (by rw [htop]; omega)
    exact ⟨t, ht, hsync, h.moved.trans hmoved⟩
  · exact ⟨shifted.cursors, rfl, h.synced, h.moved⟩

end Cursors

/-- A diff that succeeds marks lines so that those without a flag are equal in pairs. -/
def ValidDiff (doDiff : UInt64 → List XRecord → List XRecord → Option (List Bool × List Bool)) : Prop :=
  ∀ flags lines1 lines2 changed1 changed2, doDiff flags lines1 lines2 = some (changed1, changed2) →
    changed1.length = lines1.length ∧ changed2.length = lines2.length ∧
      SameLines (unmarked lines1 changed1) (unmarked lines2 changed2)

def DiffFails (doDiff : UInt64 → List XRecord → List XRecord → Option (List Bool × List Bool)) : Prop :=
  ∃ flags lines1 lines2, doDiff flags lines1 lines2 = none

section Rediff

variable {doDiff : UInt64 → List XRecord → List XRecord → Option (List Bool × List Bool)}

lemma exists_copyChanged {xdf : XdFile} {g : XdlGroup} (h : IsGroup xdf g) {flags : List Bool}
    (hlen : flags.length = g.stop - g.start) :
    ∃ lines, xdf.unchanged = xdf.unchangedBefore g.start ++ lines ∧
      (xdf.copyChanged g.start flags (g.stop - g.start)).unchangedBefore g.stop = xdf.unchangedBefore g.start ++
        unmarked ((xdf.recs.drop g.start).take (g.stop - g.start)) flags ∧
      (xdf.copyChanged g.start flags (g.stop - g.start)).unchanged =
        (xdf.copyChanged g.start flags (g.stop - g.start)).unchangedBefore g.stop ++ lines := by
  have hle := h.start_le
  have hstop := h.stop_le
  have hsum : g.start + (g.stop - g.start) = g.stop := by omega
  obtain ⟨lines, hold, hnew⟩ := @exists_unchangedBefore_append xdf (xdf.copyChanged g.start flags (g.stop - g.start)) rfl
    g.stop xdf.nrec hstop le_rfl fun j hj _ => by rw [isChanged_copyChanged (by omega), if_neg (by omega)]
  have hcopied := @unchangedBefore_copyChanged xdf (g.stop - g.start) g.start flags (by omega) hlen
  rw [hsum] at hcopied
  rw [unchangedBefore_nrec, unchangedBefore_of_flagged hle hstop h.flagged] at hold
  exact ⟨lines, hold, hcopied, (unchangedBefore_nrec _).symm.trans hnew⟩

lemma isChanged_stop_copyChanged {xdf : XdFile} {g : XdlGroup} (h : IsGroup xdf g) (flags : List Bool) :
    (xdf.copyChanged g.start flags (g.stop - g.start)).isChanged g.stop = false := by
  have hle := h.start_le
  have hstop := h.stop_le
  rw [isChanged_copyChanged (by omega), if_neg (by omega), h.behind]

lemma SameLines.append_inj {xs ys xs' ys' : List XRecord} (h : SameLines (xs ++ xs') (ys ++ ys'))
    (hlen : xs.length = ys.length) : SameLines xs ys ∧ SameLines xs' ys' := by
  rw [SameLines, List.map_append, List.map_append] at h
  exact List.append_inj h (by rw [List.length_map, List.length_map, hlen])

structure Compacts (xe xe' : XdfEnv) : Prop where
  recs1 : xe'.xdf1.recs = xe.xdf1.recs
  recs2 : xe'.xdf2.recs = xe.xdf2.recs
  unchanged : xe.xdf1.unchanged.length ≤ xe'.xdf1.unchanged.length

lemma Compacts.trans {xe xe' xe'' : XdfEnv} (h : Compacts xe xe') (h' : Compacts xe' xe'') : Compacts xe xe'' :=
  ⟨h'.recs1.trans h.recs1, h'.recs2.trans h.recs2, h.unchanged.trans h'.unchanged⟩

variable (doDiff) in
structure CompactedFrom (xe : XdfEnv) (r : Compacted) : Prop where
  compacts : Compacts xe ⟨r.xdf, r.xdfo⟩
  same : SameLines r.xdf.unchanged r.xdfo.unchanged
  ret : r.ret = 0 ∨ r.ret = -1 ∧ DiffFails doDiff

namespace Cursors

/-- At `next:` the lines behind both cursors have no flag, nor do as many lines before them. -/
structure Ended (s : Cursors) : Prop where
  stop_le : s.g.stop ≤ s.xdf.nrec
  behind : s.xdf.isChanged s.g.stop = false
  stopo_le : s.go.stop ≤ s.xdfo.nrec
  behindo : s.xdfo.isChanged s.go.stop = false
  same : SameLines s.xdf.unchanged s.xdfo.unchanged
  index : s.xdf.index s.g.stop = s.xdfo.index s.go.stop

lemma Synced.ended {s : Cursors} (h : s.Synced) : s.Ended where
  stop_le := h.group.stop_le
  behind := h.group.behind
  stopo_le := h.other.stop_le
  behindo := h.other.behind
  same := h.same
  index := by rw [h.group.index_stop, h.other.index_stop, h.index]

def env (s : Cursors) : XdfEnv := ⟨s.xdf, s.xdfo⟩

lemma Moved.compacts {s s' : Cursors} (h : Moved s s') (hs : s.Synced) (hs' : s'.Synced) : Compacts s.env s'.env where
  recs1 := h.grown.recs
  recs2 := congrArg XdFile.recs h.grown.xdfo
  unchanged := by
    have hsame := hs'.same.length
    rw [h.grown.xdfo] at hsame
    exact (hs.same.length.trans hsame.symm).le

lemma rediff_spec (hdiff : ValidDiff doDiff) {s : Cursors} (h : s.Synced) (flags : UInt64) (orig : XdlGroup) :
    (s.rediff doDiff flags orig = none ∧ DiffFails doDiff) ∨ ∃ s', s.rediff doDiff flags orig = some s' ∧ s'.g = s.g ∧ s'.Ended ∧
      Compacts s.env s'.env ∧ s'.xdf.flaggedFrom s.g.stop = s.xdf.flaggedFrom s.g.stop := by
  rw [rediff]
  split_ifs
  · rw [fallBackDiff, Nat.add_sub_cancel, Nat.add_sub_cancel]
    cases hrun : doDiff (flags &&& ~~~xdfDiffAlgorithmMask) ((s.xdf.recs.drop s.g.start).take (s.g.stop - s.g.start))
        ((s.xdfo.recs.drop s.go.start).take (s.go.stop - s.go.start)) with
    | none => exact .inl ⟨rfl, _, _, _, hrun⟩
    | some changed =>
      obtain ⟨changed1, changed2⟩ := changed
      obtain ⟨hlen1, hlen2, hvalid⟩ := hdiff _ _ _ _ _ hrun
      have hstop := h.group.stop_le
      have hstopo := h.other.stop_le
      rw [List.length_take, List.length_drop] at hlen1 hlen2
      rw [XdFile.nrec] at hstop hstopo
      obtain ⟨lines, hold, hbefore, hnew⟩ := @exists_copyChanged _ _ h.group changed1 (by omega)
      obtain ⟨lineso, holdo, hbeforeo, hnewo⟩ := @exists_copyChanged _ _ h.other changed2 (by omega)
      have hsame := h.same
      rw [hold, holdo] at hsame
      obtain ⟨hfront, hrest⟩ := hsame.append_inj h.index
      have hstopSame : SameLines ((s.xdf.copyChanged s.g.start changed1 (s.g.stop - s.g.start)).unchangedBefore s.g.stop)
          ((s.xdfo.copyChanged s.go.start changed2 (s.go.stop - s.go.start)).unchangedBefore s.go.stop) := by
        rw [hbefore, hbeforeo]
        exact hfront.append hvalid
      refine .inr ⟨_, rfl, rfl, ?_, ⟨rfl, rfl, ?_⟩, ?_⟩
      · constructor
        case stop_le => exact hstop
        case behind => exact isChanged_stop_copyChanged h.group changed1
        case stopo_le => exact hstopo
        case behindo => exact isChanged_stop_copyChanged h.other changed2
        case same =>
          dsimp only
          rw [hnew, hnewo]
          exact hstopSame.append hrest
        case index => exact hstopSame.length
      · dsimp only [env]
        rw [hnew, hold, hbefore, List.length_append, List.length_append, List.length_append]
        omega
      · change (s.xdf.copyChanged s.g.start changed1 (s.g.stop - s.g.start)).flaggedFrom s.g.stop = _
        have hle := h.group.start_le
        have hstop' := h.group.stop_le
        have hflags : ∀ j, s.g.stop ≤ j →
            (s.xdf.copyChanged s.g.start changed1 (s.g.stop - s.g.start)).isChanged j = s.xdf.isChanged j := by
          intro j hj
          rw [isChanged_copyChanged (by omega), if_neg (by omega)]
        exact @flaggedFrom_congr s.xdf (s.xdf.copyChanged s.g.start changed1 (s.g.stop - s.g.start)) rfl s.g.stop hflags
  · exact .inr ⟨s, rfl, rfl, h.ended, ⟨rfl, rfl, le_rfl⟩, rfl⟩

lemma Ended.nextStep {s : Cursors} (h : s.Ended) : s.nextStep = .inr (.ok ⟨0, s.xdf, s.xdfo⟩) ∨
    ∃ s', s.nextStep = .inl s' ∧ s'.Synced ∧ Compacts s.env s'.env ∧ s'.xdf = s.xdf ∧ s'.g.start = s.g.stop + 1 ∧
      s.g.stop < s.xdf.nrec := by
  have hlines := h.same.length
  have hindex := h.index
  rw [← index_nrec, ← index_nrec] at hlines
  obtain ⟨hend, hnone⟩ | ⟨g, hg, hstart, hgroup, hcount⟩ := groupNext_spec h.stop_le h.behind
  · obtain ⟨-, hnoneo⟩ | ⟨go, -, hstarto, hgroupo, hcounto⟩ := groupNext_spec h.stopo_le h.behindo
    · left
      rw [Cursors.nextStep, hnone, hnoneo]
    · have hmono := @index_mono s.xdfo go.start s.xdfo.nrec (hgroupo.start_le.trans hgroupo.stop_le) le_rfl
      rw [hend] at hindex
      omega
  · have hlt : s.g.stop < s.xdf.nrec := by
      have := hgroup.start_le.trans hgroup.stop_le
      omega
    obtain ⟨hendo, -⟩ | ⟨go, hgo, hstarto, hgroupo, hcounto⟩ := groupNext_spec h.stopo_le h.behindo
    · have hmono := @index_mono s.xdf g.start s.xdf.nrec (hgroup.start_le.trans hgroup.stop_le) le_rfl
      rw [hendo] at hindex
      omega
    · right
      refine ⟨{ s with g := g, go := go }, ?_, ⟨hgroup, hgroupo, h.same, ?_⟩, ⟨rfl, rfl, le_rfl⟩, rfl, hstart, hlt⟩
      · rw [Cursors.nextStep, hg, hgo]
      · dsimp only
        omega

def left (s : Cursors) : Nat := s.xdf.flaggedFrom s.g.start * (s.xdf.nrec + 1) + (s.xdf.nrec - s.g.stop)

lemma left_lt {s s' : Cursors} (hnrec : s'.xdf.nrec = s.xdf.nrec)
    (h : s'.xdf.flaggedFrom s'.g.start < s.xdf.flaggedFrom s.g.start) : s'.left < s.left := by
  have hmul := Nat.mul_le_mul_right (s.xdf.nrec + 1) (Nat.succ_le_of_lt h)
  rw [Nat.succ_mul] at hmul
  rw [left, left, hnrec]
  omega

lemma Synced.flaggedFrom_stop {s : Cursors} (h : s.Synced) (hpos : 0 < s.size) :
    s.xdf.flaggedFrom s.g.stop < s.xdf.flaggedFrom s.g.start := by
  rw [Cursors.size_pos] at hpos
  have hstop := h.group.stop_le
  have hsucc := @flaggedFrom_succ s.xdf s.g.start (by omega)
  rw [h.group.flagged s.g.start le_rfl hpos, if_pos rfl] at hsucc
  have hanti := @flaggedFrom_anti s.xdf (s.g.start + 1) s.g.stop hpos
  omega

lemma Synced.compactStep (hdiff : ValidDiff doDiff) (flags : UInt64) {s : Cursors} (h : s.Synced) :
    (∃ r, s.compactStep doDiff flags = .inr (.ok r) ∧ Compacts s.env ⟨r.xdf, r.xdfo⟩ ∧
      SameLines r.xdf.unchanged r.xdfo.unchanged ∧ (r.ret = 0 ∨ r.ret = -1 ∧ DiffFails doDiff)) ∨
    ∃ s', s.compactStep doDiff flags = .inl s' ∧ s'.Synced ∧ Compacts s.env s'.env ∧ s'.left < s.left := by
  rw [Cursors.compactStep]
  split_ifs with hempty
  · obtain hend | ⟨s', hs', hsync, hkept, hxdf, hstart, hlt⟩ := h.ended.nextStep
    · exact .inl ⟨_, hend, ⟨rfl, rfl, le_rfl⟩, h.same, .inl rfl⟩
    · refine .inr ⟨s', hs', hsync, hkept, ?_⟩
      have hanti := @flaggedFrom_anti s.xdf s.g.start s'.g.start (by omega)
      have hmul := Nat.mul_le_mul_right (s.xdf.nrec + 1) hanti
      have hle := hsync.group.start_le
      rw [left, left, hxdf]
      omega
  · have hpos : 0 < s.size := by
      have hle := h.group.start_le
      rw [Cursors.size_pos]
      omega
    obtain ⟨shifted, hshift, hpassed, hsize⟩ := shiftLoop_spec h hpos
    obtain ⟨settled, hsettle, hsettled, hmoved⟩ := settle_spec flags hpassed hsize
    have hfirst := hmoved.compacts h hsettled
    rw [hshift]
    dsimp only
    rw [hsettle]
    dsimp only
    obtain ⟨hnone, hfails⟩ | ⟨t, ht, hg, hended, hkept, hflagged⟩ := rediff_spec hdiff hsettled flags s.g
    · rw [hnone]
      exact .inl ⟨_, rfl, hfirst, hsettled.same, .inr ⟨rfl, hfails⟩⟩
    · rw [ht]
      dsimp only
      obtain hend | ⟨s', hs', hsync, hkept', hxdf, hstart, hlt⟩ := hended.nextStep
      · exact .inl ⟨_, hend, hfirst.trans hkept, hended.same, .inl rfl⟩
      · refine .inr ⟨s', hs', hsync, (hfirst.trans hkept).trans hkept', left_lt ?_ ?_⟩
        · rw [hxdf]
          exact congrArg List.length (hfirst.trans hkept).recs1
        · calc s'.xdf.flaggedFrom s'.g.start
            _ = t.xdf.flaggedFrom (settled.g.stop + 1) := by rw [hxdf, hstart, hg]
            _ ≤ t.xdf.flaggedFrom settled.g.stop := flaggedFrom_anti (Nat.le_succ _)
            _ = settled.xdf.flaggedFrom settled.g.stop := hflagged
            _ ≤ s.xdf.flaggedFrom s.g.stop := hmoved.behind
            _ < s.xdf.flaggedFrom s.g.start := h.flaggedFrom_stop hpos

lemma left_lt_sq (s : Cursors) : s.left < (s.xdf.nrec + 1) * (s.xdf.nrec + 1) := by
  have hcount : s.xdf.flaggedFrom s.g.start ≤ s.xdf.nrec := by
    have hle := List.count_le_length (a := true) (l := s.xdf.changed.drop s.g.start)
    rw [List.length_drop, s.xdf.changed_length] at hle
    exact hle.trans (Nat.sub_le _ _)
  have hmul := Nat.mul_le_mul_right (s.xdf.nrec + 1) hcount
  rw [left, Nat.succ_mul]
  omega

lemma Synced.run (hdiff : ValidDiff doDiff) (flags : UInt64) {s : Cursors} (h : s.Synced) :
    ∃ r, (∀ fuel, s.left < fuel → runFor (Cursors.compactStep doDiff flags) fuel s = some (.ok r)) ∧
      CompactedFrom doDiff s.env r := by
  obtain ⟨_, ⟨r, rfl, hr⟩, hrun⟩ := @runFor_inv _ _ (Cursors.compactStep doDiff flags) left
    (fun t => t.Synced ∧ Compacts s.env t.env) (fun res => ∃ r, res = .ok r ∧ CompactedFrom doDiff s.env r)
    (fun t t' hinv hstep => by
      obtain ⟨r, hr, -⟩ | ⟨u, hu, hsync, hkept, hlt⟩ := hinv.1.compactStep hdiff flags
      · rw [hr] at hstep
        cases hstep
      · rw [hu] at hstep
        cases hstep
        exact ⟨⟨hsync, hinv.2.trans hkept⟩, hlt⟩)
    (fun t res hinv hstep => by
      obtain ⟨r, hr, hkept, hsame, hret⟩ | ⟨u, hu, -⟩ := hinv.1.compactStep hdiff flags
      · rw [hr] at hstep
        cases hstep
        exact ⟨r, rfl, hinv.2.trans hkept, hsame, hret⟩
      · rw [hu] at hstep
        cases hstep)
    s ⟨h, ⟨rfl, rfl, le_rfl⟩⟩
  exact ⟨r, hrun, hr⟩

end Cursors

lemma changeCompact_run (hdiff : ValidDiff doDiff) (flags : UInt64) {xdf xdfo : XdFile}
    (h : SameLines xdf.unchanged xdfo.unchanged) :
    ∃ r, (∀ fuel, (xdf.nrec + 1) * (xdf.nrec + 1) ≤ fuel → changeCompact doDiff flags fuel xdf xdfo = some (.ok r)) ∧
      CompactedFrom doDiff ⟨xdf, xdfo⟩ r := by
  let first : Cursors := ⟨xdf, groupInit xdf, xdfo, groupInit xdfo⟩
  have hsync : first.Synced := ⟨isGroup_groupInit, isGroup_groupInit, h, index_zero.trans index_zero.symm⟩
  obtain ⟨r, hrun, hr⟩ := hsync.run hdiff flags
  exact ⟨r, fun fuel hfuel => hrun fuel (first.left_lt_sq.trans_le hfuel), hr⟩

/-- Compaction ends without a `BUG`, whatever the flags are, and leaves a marking with no more flags; it fails only
where the second diff of a group does. -/
theorem changeCompact_valid (doDiff : UInt64 → List XRecord → List XRecord → Option (List Bool × List Bool))
    (hdiff : ValidDiff doDiff) (flags : UInt64) (xdf xdfo : XdFile) (h : SameLines xdf.unchanged xdfo.unchanged) :
    ∃ r, (∀ fuel, (xdf.nrec + 1) * (xdf.nrec + 1) ≤ fuel → changeCompact doDiff flags fuel xdf xdfo = some (.ok r)) ∧
      r.xdf.recs = xdf.recs ∧ r.xdfo.recs = xdfo.recs ∧ SameLines r.xdf.unchanged r.xdfo.unchanged ∧
      r.xdf.changed.count true ≤ xdf.changed.count true ∧ r.xdfo.changed.count true ≤ xdfo.changed.count true ∧
      (r.ret = 0 ∨ r.ret = -1 ∧ DiffFails doDiff) := by
  obtain ⟨r, hrun, hkept, hsame, hret⟩ := changeCompact_run hdiff flags h
  have hunchangedo : xdfo.unchanged.length ≤ r.xdfo.unchanged.length := by
    rw [← h.length, ← hsame.length]
    exact hkept.unchanged
  exact ⟨r, hrun, hkept.recs1, hkept.recs2, hsame, count_changed_le hkept.recs1 hkept.unchanged,
    count_changed_le hkept.recs2 hunchangedo, hret⟩

def commonLines : List XRecord → List XRecord → Nat
  | rec1 :: recs1, rec2 :: recs2 => if recsMatch rec1 rec2 then commonLines recs1 recs2 + 1 else 0
  | _, _ => 0

def prefixDiff (_flags : UInt64) (lines1 lines2 : List XRecord) : Option (List Bool × List Bool) :=
  let count := commonLines lines1 lines2
  some (List.replicate count false ++ List.replicate (lines1.length - count) true,
    List.replicate count false ++ List.replicate (lines2.length - count) true)

lemma unmarked_replicate (lines : List XRecord) (flag : Bool) :
    unmarked lines (List.replicate lines.length flag) = if flag then [] else lines := by
  induction lines with
  | nil => cases flag <;> rfl
  | cons line lines ih =>
    rw [unmarked] at ih ⊢
    cases flag <;> simpa [List.replicate_succ] using ih

lemma unmarked_take (lines : List XRecord) {count : Nat} (h : count ≤ lines.length) :
    unmarked lines (List.replicate count false ++ List.replicate (lines.length - count) true) = lines.take count := by
  have htake : (lines.take count).length = count := by
    rw [List.length_take]
    omega
  have hfront := unmarked_replicate (lines.take count) false
  have hrest := unmarked_replicate (lines.drop count) true
  rw [htake] at hfront
  rw [List.length_drop] at hrest
  calc unmarked lines (List.replicate count false ++ List.replicate (lines.length - count) true)
    _ = unmarked (lines.take count ++ lines.drop count)
        (List.replicate count false ++ List.replicate (lines.length - count) true) := by rw [List.take_append_drop]
    _ = lines.take count := by
      rw [unmarked_append (by rw [htake, List.length_replicate]), hfront, hrest]
      exact List.append_nil _

lemma commonLines_spec (lines1 lines2 : List XRecord) :
    commonLines lines1 lines2 ≤ lines1.length ∧ commonLines lines1 lines2 ≤ lines2.length ∧
      SameLines (lines1.take (commonLines lines1 lines2)) (lines2.take (commonLines lines1 lines2)) := by
  induction lines1 generalizing lines2 with
  | nil => exact ⟨le_rfl, Nat.zero_le _, SameLines.refl []⟩
  | cons rec1 recs1 ih =>
    cases lines2 with
    | nil => exact ⟨Nat.zero_le _, le_rfl, SameLines.refl []⟩
    | cons rec2 recs2 =>
      obtain ⟨h1, h2, hsame⟩ := ih recs2
      rw [commonLines]
      split_ifs with hmatch
      · refine ⟨Nat.succ_le_succ h1, Nat.succ_le_succ h2, ?_⟩
        rw [recsMatch, beq_iff_eq] at hmatch
        exact congrArg₂ List.cons hmatch hsame
      · exact ⟨Nat.zero_le _, Nat.zero_le _, SameLines.refl []⟩

lemma validDiff_prefixDiff : ValidDiff prefixDiff := by
  intro flags lines1 lines2 changed1 changed2 h
  obtain ⟨rfl, rfl⟩ := Prod.mk.inj (Option.some_inj.mp h)
  obtain ⟨h1, h2, hsame⟩ := commonLines_spec lines1 lines2
  refine ⟨?_, ?_, ?_⟩
  · rw [List.length_append, List.length_replicate, List.length_replicate]
    omega
  · rw [List.length_append, List.length_replicate, List.length_replicate]
    omega
  · rwa [unmarked_take lines1 h1, unmarked_take lines2 h2]

theorem changeCompact_valid_repeated : ∃ r,
    (∀ fuel, 16 ≤ fuel → changeCompact prefixDiff (xdfIndentHeuristic ||| xdfHistogramDiff) fuel
      ⟨[⟨[0x61], 0⟩, ⟨[0x61], 0⟩, ⟨[0x61], 0⟩], [false, true, false], rfl, by decide⟩
      ⟨[⟨[0x61], 0⟩, ⟨[0x61], 0⟩], [false, false], rfl, by decide⟩ = some (.ok r)) ∧
    r.xdf.recs = [⟨[0x61], 0⟩, ⟨[0x61], 0⟩, ⟨[0x61], 0⟩] ∧ r.xdfo.recs = [⟨[0x61], 0⟩, ⟨[0x61], 0⟩] ∧
    SameLines r.xdf.unchanged r.xdfo.unchanged ∧ r.xdf.changed.count true ≤ 1 ∧ r.xdfo.changed.count true ≤ 0 ∧
    (r.ret = 0 ∨ r.ret = -1 ∧ DiffFails prefixDiff) :=
  changeCompact_valid prefixDiff validDiff_prefixDiff (xdfIndentHeuristic ||| xdfHistogramDiff)
    ⟨[⟨[0x61], 0⟩, ⟨[0x61], 0⟩, ⟨[0x61], 0⟩], [false, true, false], rfl, by decide⟩
    ⟨[⟨[0x61], 0⟩, ⟨[0x61], 0⟩], [false, false], rfl, by decide⟩ rfl

end Rediff

end GitCore.Xdiff
