import GitCore.Reach.PaintSpec

/-!
# The colours of a painting

What the flags say after `paint_down_to_common`: which commits have both colours, and that all
flags are on paths from the commits the walk has started with.
-/

namespace GitCore.Reach

def allFlags : List Mark :=
  [.parent1, .parent2, .stale, .result, .enqueued]

variable {C : Type} {dag : CommitDag C} {one : C} {twos : List C} {minGeneration : Nat}
  {ordered : Prop} {marks : Marks C} {result : List C}

lemma Settled.parent1 {x : C} (hone : (one, .parent1) ∈ marks)
    (h : ∀ d, Reaches dag one d → ProperAncestor dag x d → Settled dag marks d) (hx : Reaches dag one x) :
    (x, .parent1) ∈ marks := by
  induction hx with
  | refl => exact hone
  | tail hd hp ih =>
    rename_i d x
    have hxd : ProperAncestor dag x d := properAncestor_of_parent hp .refl
    have hcolour := ih fun e he hde => h e he (hxd.of_reaches_left hde.reaches)
    exact (h d hd hxd).1 x hp .parent1 hcolour

lemma Settled.parent2 {x two : C} (htwo : (two, .parent2) ∈ marks)
    (h : ∀ d, Reaches dag two d → ProperAncestor dag x d → Settled dag marks d) (hx : Reaches dag two x) :
    (x, .parent2) ∈ marks := by
  induction hx with
  | refl => exact htwo
  | tail hd hp ih =>
    rename_i d x
    have hxd : ProperAncestor dag x d := properAncestor_of_parent hp .refl
    have hcolour := ih fun e he hde => h e he (hxd.of_reaches_left hde.reaches)
    exact (h d hd hxd).1 x hp .parent2 hcolour

lemma IsMergeBase.not_stale {starts : Marks C} (h : PaintSound dag one twos starts marks) {x d : C}
    (hx : IsMergeBase dag one twos x) (hd : Reaches dag d x) : (d, .stale) ∉ marks := by
  intro hstale
  obtain ⟨e, he, hde⟩ := h.stale d hstale
  have hxe : ProperAncestor dag x e := hde.of_reaches_right hd
  exact hx.2 e he hxe

variable [DecidableEq C]

lemma mem_startMarks_one (one : C) (twos : List C) : (one, .parent1) ∈ startMarks one twos := by
  simp [startMarks]

lemma mem_startMarks_two {two : C} (one : C) (h : two ∈ twos) : (two, .parent2) ∈ startMarks one twos := by
  simp [startMarks, h]

lemma PaintSound.mergeBase_result (h : PaintSound dag one twos (startMarks one twos) marks) {x : C}
    (hx : IsMergeBase dag one twos x) (hsettled : ∀ d, Reaches dag d x → (d, .stale) ∉ marks → Settled dag marks d) :
    (x, .result) ∈ marks ∧ (x, .stale) ∉ marks := by
  have hstale : ∀ d, Reaches dag d x → (d, Mark.stale) ∉ marks :=
    fun d hd => IsMergeBase.not_stale h hx hd
  obtain ⟨hone, two, htwo, hreach⟩ := hx.1
  have h1 : (x, Mark.parent1) ∈ marks :=
    Settled.parent1 (h.starts_sub (mem_startMarks_one one twos))
      (fun d _ hxd => hsettled d hxd.reaches (hstale d hxd.reaches)) hone
  have h2 : (x, Mark.parent2) ∈ marks :=
    Settled.parent2 (h.starts_sub (mem_startMarks_two one htwo))
      (fun d _ hxd => hsettled d hxd.reaches (hstale d hxd.reaches)) hreach
  have hx : Settled dag marks x := hsettled x .refl (hstale x .refl)
  exact ⟨hx.2 h1 h2 (hstale x .refl), hstale x .refl⟩

section

variable {findAll : Bool}
  (h : Painted dag one twos minGeneration findAll ordered (startMarks one twos) marks result)
include h

lemma Painted.isCommon {c : C} (hc : c ∈ result) : IsCommon dag one twos c := by
  obtain ⟨h1, h2⟩ := h.both c .result ((h.mem_result c).mpr hc) (.inr rfl)
  exact ⟨h.parent1 c h1, h.parent2 c h2⟩

lemma Painted.mergeBase_mem {x : C} (hx : IsMergeBase dag one twos x)
    (hsettled : ∀ d, Reaches dag d x → (d, .stale) ∉ marks → Settled dag marks d) :
    x ∈ result ∧ (x, .stale) ∉ marks := by
  obtain ⟨hres, hstale⟩ := h.toPaintSound.mergeBase_result hx hsettled
  exact ⟨(h.mem_result x).mp hres, hstale⟩

lemma Painted.clear [Fintype C] : clearCommitMarksMany dag allFlags marks (one :: twos) = ∅ := by
  refine Finset.eq_empty_of_forall_notMem fun ⟨d, m⟩ hmem => ?_
  have hpath : ∀ d, Flagged allFlags marks d → ∃ c ∈ one :: twos, FlaggedPath dag allFlags marks c d := by
    rintro d ⟨m, -, hm⟩
    obtain ⟨start, hstart, hflag, hpath⟩ := h.painted d m hm
    have hweak : ∀ c, Flagged [.parent1, .parent2] marks c → Flagged allFlags marks c := by
      rintro c ⟨m, hm, hin⟩
      exact ⟨m, by cases m <;> simp [allFlags], hin⟩
    exact ⟨start, hstart, hweak start hflag,
      Relation.ReflTransGen.mono (fun _ p hp => ⟨hp.1, hweak p hp.2⟩) _ _ hpath⟩
  have hm := ((mem_clearCommitMarksMany hpath).mp hmem).2
  cases m <;> simp [allFlags] at hm

end

section

variable (h : Painted dag one twos minGeneration true ordered (startMarks one twos) marks result)
include h

lemma Painted.mergeBase_mem_findAll (hmin : minGeneration = 0) {x : C} (hx : IsMergeBase dag one twos x) :
    x ∈ result ∧ (x, .stale) ∉ marks := by
  refine h.mergeBase_mem hx fun d _ hd => ?_
  obtain hs | hs | hs | ⟨hall, -⟩ := h.settled d
  · exact hs
  · exact absurd hs hd
  · omega
  · cases hall

lemma Painted.parent2_one (hmin : minGeneration ≤ dag.generation one) :
    (one, .parent2) ∈ marks ↔ ∃ two ∈ twos, Reaches dag two one := by
  refine ⟨h.parent2 one, ?_⟩
  rintro ⟨two, htwo, hreach⟩
  refine Settled.parent2 (h.starts_sub (mem_startMarks_two one htwo)) (fun d _ hd => ?_) hreach
  obtain hs | hs | hs | ⟨hall, -⟩ := h.settled d
  · exact hs
  · have h1 := (h.both d .stale hs (.inl rfl)).1
    exact absurd (hd.of_reaches_left (h.parent1 d h1)) (not_properAncestor_self one)
  · have := generation_le_of_reaches hd.reaches
    omega
  · cases hall

end

end GitCore.Reach
