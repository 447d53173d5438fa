import GitCore.Reach.Paint

/-!
# What the painting finds

A commit that is not in the queue has handed its colours to its parents. When only stale commits
are left in the queue, all colours of the commits above a merge base have come down to it.
-/

namespace GitCore.Reach

variable {C : Type} {dag : CommitDag C} {le : C → C → Bool}

structure QueueOrder (le : C → C → Bool) : Prop where
  total : ∀ a b, le a b = false → le b a = true
  trans : ∀ a b c, le a b = true → le b c = true → le a c = true

lemma queueOrder_date (dag : CommitDag C) : QueueOrder (compareCommitsByCommitDate dag) where
  total a b h := by
    simp only [compareCommitsByCommitDate, decide_eq_false_iff_not, decide_eq_true_eq] at h ⊢
    omega
  trans a b c hab hbc := by
    simp only [compareCommitsByCommitDate, decide_eq_true_eq] at hab hbc ⊢
    omega

lemma compareByGen_iff {a b : C} : compareCommitsByGenThenCommitDate dag a b = true ↔
    dag.generation b < dag.generation a ∨ (dag.generation b = dag.generation a ∧ dag.date b ≤ dag.date a) := by
  unfold compareCommitsByGenThenCommitDate
  split_ifs with h h'
  · simp only [false_iff]
    omega
  · simp [h']
  · rw [decide_eq_true_eq]
    omega

lemma queueOrder_gen (dag : CommitDag C) : QueueOrder (compareCommitsByGenThenCommitDate dag) where
  total a b h := by
    rw [← Bool.not_eq_true, compareByGen_iff] at h
    rw [compareByGen_iff]
    omega
  trans a b c hab hbc := by
    rw [compareByGen_iff] at *
    omega

lemma prioQueuePut_split (le : C → C → Bool) (c : C) (pq : List C) :
    ∃ before after, prioQueuePut le c pq = before ++ c :: after ∧ pq = before ++ after ∧
      (∀ e ∈ before, le e c = true) ∧ ∀ e ∈ after.head?, le e c = false := by
  induction pq with
  | nil => exact ⟨[], [], rfl, rfl, by simp, by simp⟩
  | cons first pq ih =>
    rw [prioQueuePut]
    split_ifs with hle
    · obtain ⟨before, after, hput, hsplit, hbefore, hafter⟩ := ih
      refine ⟨first :: before, after, by rw [hput]; rfl, by rw [hsplit]; rfl, ?_, hafter⟩
      intro e he
      cases he with
      | head => exact hle
      | tail _ he => exact hbefore e he
    · exact ⟨[], first :: pq, rfl, rfl, by simp, by simpa using hle⟩

section

variable (hle : QueueOrder le)
include hle

lemma le_false_of_mem_after {c : C} {after : List C} (hsorted : after.Pairwise (fun a b => le a b = true))
    (h : ∀ e ∈ after.head?, le e c = false) : ∀ e ∈ after, le e c = false := by
  cases after with
  | nil => simp
  | cons first after =>
    have hfirst : le first c = false := h first rfl
    intro e he
    cases he with
    | head => exact hfirst
    | tail _ he =>
      rw [← Bool.not_eq_true]
      intro hec
      have := hle.trans first e c ((List.pairwise_cons.mp hsorted).1 e he) hec
      simp [hfirst] at this

lemma sorted_prioQueuePut {c : C} {pq : List C} (hsorted : pq.Pairwise (fun a b => le a b = true)) :
    (prioQueuePut le c pq).Pairwise (fun a b => le a b = true) := by
  obtain ⟨before, after, hput, rfl, hbefore, hafter⟩ := prioQueuePut_split le c pq
  obtain ⟨hsb, hsa, hcross⟩ := List.pairwise_append.mp hsorted
  have hlater := le_false_of_mem_after hle hsa hafter
  rw [hput]
  refine List.pairwise_append.mpr ⟨hsb, List.pairwise_cons.mpr ⟨fun e he => hle.total e c (hlater e he), hsa⟩, ?_⟩
  intro a ha b hb
  cases hb with
  | head => exact hbefore a ha
  | tail _ hb => exact hcross a ha b hb

end

def Bounded (marks : Marks C) (queue : List C) : Option C → Prop
  | none => ∀ c ∈ queue, (c, .stale) ∈ marks
  | some bound => ∃ before after, queue = before ++ bound :: after ∧ ∀ c ∈ after, (c, .stale) ∈ marks

lemma Bounded.mono {marks marks' : Marks C} {queue : List C} {bound : Option C} (h : Bounded marks queue bound)
    (hsub : ∀ c, (c, .stale) ∈ marks → (c, .stale) ∈ marks') : Bounded marks' queue bound := by
  cases bound with
  | none => exact fun c hc => hsub c (h c hc)
  | some bound =>
    obtain ⟨before, after, hqueue, hafter⟩ := h
    exact ⟨before, after, hqueue, fun c hc => hsub c (hafter c hc)⟩

lemma Bounded.put [DecidableEq C] (hle : QueueOrder le) {s : PaintState C} (h : Bounded s.marks s.queue s.maxNonstale)
    (hsorted : s.queue.Pairwise (fun a b => le a b = true)) (c : C) :
    Bounded s.marks (nonstaleQueuePut le s c).queue (nonstaleQueuePut le s c).maxNonstale := by
  obtain ⟨before, after, hput, hqueue, hbefore, hafter⟩ := prioQueuePut_split le c s.queue
  rw [hqueue] at hsorted
  have hlater := le_false_of_mem_after hle (List.pairwise_append.mp hsorted).2.1 hafter
  simp only [nonstaleQueuePut, hput]
  rw [hqueue] at h
  cases hmax : s.maxNonstale with
  | none =>
    rw [hmax] at h
    by_cases hstale : (c, .stale) ∈ s.marks
    · rw [if_pos hstale]
      intro e he
      obtain he | he := List.mem_append.mp he
      · exact h e (List.mem_append_left _ he)
      · cases he with
        | head => exact hstale
        | tail _ he => exact h e (List.mem_append_right _ he)
    · rw [if_neg hstale]
      exact ⟨before, after, rfl, fun e he => h e (List.mem_append_right _ he)⟩
  | some old =>
    rw [hmax] at h
    obtain ⟨pre, post, hsplit, hpost⟩ := h
    -- the bound stands before the new commit or behind it
    have hplace : (∃ mid, before = pre ++ old :: mid ∧ post = mid ++ after) ∨
        ∃ mid, after = mid ++ old :: post ∧ pre = before ++ mid := by
      obtain ⟨mid, hpre, hafter'⟩ | ⟨mid, hbefore', hrest⟩ := List.append_eq_append_iff.mp hsplit
      · exact .inr ⟨mid, hafter', hpre⟩
      · cases mid with
        | nil => exact .inr ⟨[], by simpa using hrest.symm, by simpa using hbefore'.symm⟩
        | cons first mid =>
          obtain ⟨rfl, rfl⟩ := List.cons.inj hrest
          exact .inl ⟨mid, hbefore', rfl⟩
    by_cases hstale : (c, .stale) ∈ s.marks
    · rw [if_pos hstale]
      obtain ⟨mid, rfl, rfl⟩ | ⟨mid, rfl, rfl⟩ := hplace
      · refine ⟨pre, mid ++ c :: after, by simp, fun e he => ?_⟩
        obtain he | he := List.mem_append.mp he
        · exact hpost e (List.mem_append_left _ he)
        · cases he with
          | head => exact hstale
          | tail _ he => exact hpost e (List.mem_append_right _ he)
      · exact ⟨before ++ c :: mid, post, by simp, hpost⟩
    · rw [if_neg hstale]
      dsimp only
      obtain ⟨mid, rfl, rfl⟩ | ⟨mid, rfl, rfl⟩ := hplace
      · rw [if_pos (hbefore old (by simp))]
        exact ⟨pre ++ old :: mid, after, by simp, fun e he => hpost e (List.mem_append_right _ he)⟩
      · rw [if_neg (by simpa using hlater old (by simp))]
        exact ⟨before ++ c :: mid, post, by simp, hpost⟩

def Hands (marks : Marks C) (c : C) : Mark → Prop
  | .parent1 => (c, .parent1) ∈ marks
  | .parent2 => (c, .parent2) ∈ marks
  | .stale => (c, .parent1) ∈ marks ∧ (c, .parent2) ∈ marks
  | _ => False

structure PaintSound (dag : CommitDag C) (one : C) (twos : List C) (starts marks : Marks C) : Prop where
  parent1 : ∀ c, (c, .parent1) ∈ marks → Reaches dag one c
  parent2 : ∀ c, (c, .parent2) ∈ marks → ∃ two ∈ twos, Reaches dag two c
  stale : ∀ c, (c, .stale) ∈ marks → ∃ d, IsCommon dag one twos d ∧ ProperAncestor dag c d
  both : ∀ c m, (c, m) ∈ marks → m = .stale ∨ m = .result → (c, .parent1) ∈ marks ∧ (c, .parent2) ∈ marks
  painted : ∀ c m, (c, m) ∈ marks →
    ∃ start ∈ one :: twos, FlaggedPath dag [.parent1, .parent2] marks start c
  starts_sub : starts ⊆ marks

/-- The invariant of the walk. `busy` are the commits with parents that are still to get their
colours, and `lost` the commit that was just taken from the queue. -/
structure PaintInv (dag : CommitDag C) (le : C → C → Bool) (one : C) (twos : List C) (minGeneration : Nat)
    (busy : C → C → Prop) (lost : C → Prop) (starts : Marks C) (s : PaintState C) : Prop
    extends PaintSound dag one twos starts s.marks where
  enqueued : ∀ c, (c, .enqueued) ∈ s.marks ↔ c ∈ s.queue
  nodup : s.queue.Nodup
  sorted : s.queue.Pairwise (fun a b => le a b = true)
  bounded : Bounded s.marks s.queue s.maxNonstale
  lastGen : minGeneration ≠ 0 → ∀ c ∈ s.queue, dag.generation c ≤ s.lastGen
  mem_result : ∀ c, (c, .result) ∈ s.marks ↔ c ∈ s.result
  result_nodup : s.result.Nodup
  handed : ∀ c, c ∉ s.queue → ∀ p ∈ dag.parents c, ¬ busy c p → ∀ m, Hands s.marks c m → (p, m) ∈ s.marks
  found : ∀ c, c ∉ s.queue → ¬ lost c → (c, .parent1) ∈ s.marks → (c, .parent2) ∈ s.marks →
    (c, .stale) ∉ s.marks → (c, .result) ∈ s.marks

structure MayGet (dag : CommitDag C) (one : C) (twos : List C) (marks : Marks C) (p : C) (flags : List Mark) :
    Prop where
  sub : ∀ m ∈ flags, m ∈ [Mark.parent1, .parent2, .stale]
  parent1 : .parent1 ∈ flags → Reaches dag one p
  parent2 : .parent2 ∈ flags → ∃ two ∈ twos, Reaches dag two p
  stale : .stale ∈ flags → (∃ d, IsCommon dag one twos d ∧ ProperAncestor dag p d) ∧
    .parent1 ∈ flags ∧ .parent2 ∈ flags
  colour : .parent1 ∈ flags ∨ .parent2 ∈ flags
  source : p ∈ one :: twos ∨ ∃ c, p ∈ dag.parents c ∧ ∃ m, (c, m) ∈ marks

section

variable {one : C} {twos : List C} {minGeneration : Nat} {busy : C → C → Prop} {lost : C → Prop}
  {starts : Marks C} {s : PaintState C}

lemma PaintInv.mono_busy {busy' : C → C → Prop} (h : PaintInv dag le one twos minGeneration busy lost starts s)
    (hbusy : ∀ c p, p ∈ dag.parents c → c ∉ s.queue → busy c p →
      busy' c p ∨ ∀ m, Hands s.marks c m → (p, m) ∈ s.marks) :
    PaintInv dag le one twos minGeneration busy' lost starts s :=
  { h with
    handed := by
      intro c hc p hp hnot m hm
      by_cases hb : busy c p
      · obtain hb' | hdone := hbusy c p hp hc hb
        · exact absurd hb' hnot
        · exact hdone m hm
      · exact h.handed c hc p hp hb m hm }

lemma PaintInv.mayGet (h : PaintInv dag le one twos minGeneration busy lost starts s) {c p : C}
    (hp : p ∈ dag.parents c) {flags : List Mark} (hflags : ∀ m, m ∈ flags ↔ Hands s.marks c m)
    (hcolour : (c, .parent1) ∈ s.marks ∨ (c, .parent2) ∈ s.marks) : MayGet dag one twos s.marks p flags where
  sub m hm := by
    have := (hflags m).mp hm
    cases m <;> first | exact absurd this id | simp
  parent1 hm := (h.parent1 c ((hflags _).mp hm)).tail hp
  parent2 hm := by
    obtain ⟨two, htwo, hreach⟩ := h.parent2 c ((hflags _).mp hm)
    exact ⟨two, htwo, hreach.tail hp⟩
  stale hm := by
    obtain ⟨h1, h2⟩ := (hflags _).mp hm
    refine ⟨⟨c, ⟨h.parent1 c h1, h.parent2 c h2⟩, properAncestor_of_parent hp .refl⟩, ?_, ?_⟩
    · exact (hflags _).mpr h1
    · exact (hflags _).mpr h2
  colour := hcolour.imp (hflags .parent1).mpr (hflags .parent2).mpr
  source := by
    obtain hc | hc := hcolour
    · exact .inr ⟨c, hp, _, hc⟩
    · exact .inr ⟨c, hp, _, hc⟩

lemma parent_ne {c p : C} (hp : p ∈ dag.parents c) : c ≠ p := by
  rintro rfl
  exact not_properAncestor_self c (properAncestor_of_parent hp .refl)

variable [DecidableEq C]

lemma mem_putDedup_marks {s : PaintState C} {c d : C} {m : Mark} :
    (d, m) ∈ (nonstaleQueuePutDedup le s c).marks ↔ (d, m) ∈ s.marks ∨ (d = c ∧ m = .enqueued) := by
  unfold nonstaleQueuePutDedup
  split_ifs with h
  · refine ⟨.inl, ?_⟩
    rintro (h' | ⟨rfl, rfl⟩)
    · exact h'
    · exact h
  · simp [nonstaleQueuePut, or_comm]

lemma mem_putDedup_queue {s : PaintState C} {c d : C} (henq : (c, .enqueued) ∈ s.marks ↔ c ∈ s.queue) :
    d ∈ (nonstaleQueuePutDedup le s c).queue ↔ d ∈ s.queue ∨ d = c := by
  unfold nonstaleQueuePutDedup
  split_ifs with h
  · refine ⟨.inl, ?_⟩
    rintro (h' | rfl)
    · exact h'
    · exact henq.mp h
  · obtain ⟨before, after, hput, hqueue, -, -⟩ := prioQueuePut_split le c s.queue
    simp only [nonstaleQueuePut, hput]
    rw [hqueue]
    simp only [List.mem_append, List.mem_cons]
    tauto

lemma putDedup_rest (s : PaintState C) (c : C) :
    (nonstaleQueuePutDedup le s c).result = s.result ∧ (nonstaleQueuePutDedup le s c).lastGen = s.lastGen := by
  unfold nonstaleQueuePutDedup
  split_ifs
  · exact ⟨rfl, rfl⟩
  · exact ⟨rfl, rfl⟩

lemma result_parents {flags : List Mark} (parents : List C) (s : PaintState C) :
    (parents.foldl (paintParent le flags) s).result = s.result := by
  induction parents generalizing s with
  | nil => rfl
  | cons p parents ih =>
    rw [List.foldl_cons, ih, paintParent]
    split_ifs
    · rfl
    · exact (putDedup_rest _ p).1

lemma result_starts (twos : List C) (s : PaintState C) :
    (twos.foldl (fun s two => nonstaleQueuePutDedup le { s with marks := addFlags s.marks two [.parent2] } two)
      s).result = s.result := by
  induction twos generalizing s with
  | nil => rfl
  | cons two twos ih =>
    rw [List.foldl_cons, ih]
    exact (putDedup_rest _ two).1

lemma PaintInv.put (hle : QueueOrder le) (h : PaintInv dag le one twos minGeneration busy lost starts s) {p : C}
    {flags : List Mark} (hflags : MayGet dag one twos s.marks p flags)
    (hgen : minGeneration ≠ 0 → dag.generation p ≤ s.lastGen) :
    PaintInv dag le one twos minGeneration busy lost starts
      (nonstaleQueuePutDedup le { s with marks := addFlags s.marks p flags } p) := by
  have hmem : ∀ {d m}, (d, m) ∈ (nonstaleQueuePutDedup le { s with marks := addFlags s.marks p flags } p).marks ↔
      ((d, m) ∈ s.marks ∨ (d = p ∧ m ∈ flags)) ∨ (d = p ∧ m = .enqueued) := by
    intro d m
    rw [mem_putDedup_marks, mem_addFlags]
  have hpaint : ∀ {m}, m ∈ flags → m ≠ .enqueued ∧ m ≠ .result := by
    intro m hm
    have := hflags.sub m hm
    constructor <;> rintro rfl <;> simp at this
  have henq : (p, Mark.enqueued) ∈ addFlags s.marks p flags ↔ p ∈ s.queue := by
    rw [mem_addFlags, h.enqueued]
    exact or_iff_left fun hp => (hpaint hp.2).1 rfl
  have hqueue : ∀ {d}, d ∈ (nonstaleQueuePutDedup le { s with marks := addFlags s.marks p flags } p).queue ↔
      d ∈ s.queue ∨ d = p := mem_putDedup_queue henq
  obtain ⟨hresult, hlast⟩ := @putDedup_rest _ le _ { s with marks := addFlags s.marks p flags } p
  have hold : ∀ {d m}, d ≠ p →
      ((d, m) ∈ (nonstaleQueuePutDedup le { s with marks := addFlags s.marks p flags } p).marks ↔
        (d, m) ∈ s.marks) := by
    intro d m hne
    rw [hmem]
    simp [hne]
  have hgrow : ∀ {d m}, (d, m) ∈ s.marks →
      (d, m) ∈ (nonstaleQueuePutDedup le { s with marks := addFlags s.marks p flags } p).marks :=
    fun hm => hmem.mpr (.inl (.inl hm))
  have hgrowpath : ∀ {start c}, FlaggedPath dag [.parent1, .parent2] s.marks start c →
      FlaggedPath dag [.parent1, .parent2]
        (nonstaleQueuePutDedup le { s with marks := addFlags s.marks p flags } p).marks start c := by
    intro start c hpath
    exact hpath.grow fun x hx => hgrow hx
  have hflagp : Flagged [.parent1, .parent2]
      (nonstaleQueuePutDedup le { s with marks := addFlags s.marks p flags } p).marks p := by
    obtain hc | hc := hflags.colour
    · exact ⟨.parent1, by simp, hmem.mpr (.inl (.inr ⟨rfl, hc⟩))⟩
    · exact ⟨.parent2, by simp, hmem.mpr (.inl (.inr ⟨rfl, hc⟩))⟩
  have hpathp : ∃ start ∈ one :: twos, FlaggedPath dag [.parent1, .parent2]
      (nonstaleQueuePutDedup le { s with marks := addFlags s.marks p flags } p).marks start p := by
    obtain hp | ⟨c, hp, m, hc⟩ := hflags.source
    · exact ⟨p, hp, .refl hflagp⟩
    · obtain ⟨start, hstart, hpath⟩ := h.painted c m hc
      exact ⟨start, hstart, (hgrowpath hpath).tail hp hflagp⟩
  refine ⟨⟨?_, ?_, ?_, ?_, ?_, fun x hx => hgrow (h.starts_sub hx)⟩, ?_, ?_, ?_, ?_, ?_, ?_, ?_, ?_, ?_⟩
  · intro c hc
    obtain (hin | ⟨rfl, hin⟩) | ⟨-, hin⟩ := hmem.mp hc
    · exact h.parent1 c hin
    · exact hflags.parent1 hin
    · cases hin
  · intro c hc
    obtain (hin | ⟨rfl, hin⟩) | ⟨-, hin⟩ := hmem.mp hc
    · exact h.parent2 c hin
    · exact hflags.parent2 hin
    · cases hin
  · intro c hc
    obtain (hin | ⟨rfl, hin⟩) | ⟨-, hin⟩ := hmem.mp hc
    · exact h.stale c hin
    · exact (hflags.stale hin).1
    · cases hin
  · intro c m hc hm
    obtain (hin | ⟨rfl, hin⟩) | ⟨-, hin⟩ := hmem.mp hc
    · obtain ⟨h1, h2⟩ := h.both c m hin hm
      exact ⟨hgrow h1, hgrow h2⟩
    · obtain rfl | rfl := hm
      · obtain ⟨-, h1, h2⟩ := hflags.stale hin
        exact ⟨hmem.mpr (.inl (.inr ⟨rfl, h1⟩)), hmem.mpr (.inl (.inr ⟨rfl, h2⟩))⟩
      · exact absurd rfl (hpaint hin).2
    · subst hin
      simp at hm
  · intro c m hc
    by_cases hcp : c = p
    · subst hcp
      exact hpathp
    · obtain ⟨start, hstart, hpath⟩ := h.painted c m ((hold hcp).mp hc)
      exact ⟨start, hstart, hgrowpath hpath⟩
  · intro c
    rw [hmem, hqueue, h.enqueued]
    constructor
    · rintro ((hc | ⟨-, hc⟩) | ⟨rfl, -⟩)
      · exact .inl hc
      · exact absurd rfl (hpaint hc).1
      · exact .inr rfl
    · rintro (hc | rfl)
      · exact .inl (.inl hc)
      · exact .inr ⟨rfl, rfl⟩
  · unfold nonstaleQueuePutDedup
    split_ifs with hin
    · exact h.nodup
    · have hnot : p ∉ s.queue := fun hp => hin (henq.mpr hp)
      obtain ⟨before, after, hput, hsplit, -, -⟩ := prioQueuePut_split le p s.queue
      have hnodup := h.nodup
      simp only [nonstaleQueuePut, hput]
      rw [hsplit] at hnodup hnot
      exact List.nodup_middle.mpr (List.nodup_cons.mpr ⟨hnot, hnodup⟩)
  · unfold nonstaleQueuePutDedup
    split_ifs
    · exact h.sorted
    · exact sorted_prioQueuePut hle h.sorted
  · have hb : Bounded (addFlags s.marks p flags) s.queue s.maxNonstale :=
      h.bounded.mono fun c hc => mem_addFlags.mpr (.inl hc)
    unfold nonstaleQueuePutDedup
    split_ifs
    · exact hb
    · refine Bounded.put hle (s := { s with marks := insert (p, .enqueued) (addFlags s.marks p flags) }) ?_ h.sorted p
      exact hb.mono fun c hc => Finset.mem_insert_of_mem hc
  · intro hmin c hc
    rw [hlast]
    obtain hc | rfl := hqueue.mp hc
    · exact h.lastGen hmin c hc
    · exact hgen hmin
  · intro c
    rw [hmem, hresult, ← h.mem_result]
    constructor
    · rintro ((hc | ⟨-, hc⟩) | ⟨-, hc⟩)
      · exact hc
      · exact absurd rfl (hpaint hc).2
      · cases hc
    · exact fun hc => .inl (.inl hc)
  · rw [hresult]
    exact h.result_nodup
  · intro c hc q hq hbusy m hm
    have hcq : c ∉ s.queue := fun hin => hc (hqueue.mpr (.inl hin))
    have hcp : c ≠ p := fun heq => hc (hqueue.mpr (.inr heq))
    refine hgrow (h.handed c hcq q hq hbusy m ?_)
    cases m with
    | parent1 => exact (hold hcp).mp hm
    | parent2 => exact (hold hcp).mp hm
    | stale => exact ⟨(hold hcp).mp hm.1, (hold hcp).mp hm.2⟩
    | result => exact hm
    | enqueued => exact hm
  · intro c hc hlost h1 h2 hstale
    have hcq : c ∉ s.queue := fun hin => hc (hqueue.mpr (.inl hin))
    have hcp : c ≠ p := fun heq => hc (hqueue.mpr (.inr heq))
    exact hgrow (h.found c hcq hlost ((hold hcp).mp h1) ((hold hcp).mp h2) fun hin => hstale (hgrow hin))

lemma mem_paintParent_marks {flags : List Mark} {s : PaintState C} {p d : C} {m : Mark} :
    (d, m) ∈ (paintParent le flags s p).marks →
      (d, m) ∈ s.marks ∨ (d = p ∧ (m ∈ flags ∨ m = .enqueued)) := by
  unfold paintParent
  split_ifs
  · exact .inl
  · rw [mem_putDedup_marks, mem_addFlags]
    tauto

lemma marks_subset_paintParent (flags : List Mark) (s : PaintState C) (p : C) :
    s.marks ⊆ (paintParent le flags s p).marks := by
  unfold paintParent
  split_ifs
  · exact subset_rfl
  · intro x hx
    exact mem_putDedup_marks.mpr (.inl (mem_addFlags.mpr (.inl hx)))

lemma hands_paintParent {flags : List Mark} {s : PaintState C} {c p : C} (hp : p ∈ dag.parents c) (m : Mark) :
    Hands (paintParent le flags s p).marks c m ↔ Hands s.marks c m := by
  have hsame : ∀ m, (c, m) ∈ (paintParent le flags s p).marks ↔ (c, m) ∈ s.marks := by
    intro m
    refine ⟨fun hm => ?_, fun hm => marks_subset_paintParent flags s p hm⟩
    exact (mem_paintParent_marks hm).resolve_right fun h => parent_ne hp h.1
  cases m <;> simp [Hands, hsame]

lemma PaintInv.parent (hle : QueueOrder le) {c p : C} {ps : List C} (hp : p ∈ dag.parents c)
    (h : PaintInv dag le one twos minGeneration (fun c' p' => c' = c ∧ p' ∈ p :: ps) lost starts s)
    {flags : List Mark} (hflags : ∀ m, m ∈ flags ↔ Hands s.marks c m)
    (hcolour : (c, .parent1) ∈ s.marks ∨ (c, .parent2) ∈ s.marks)
    (hgen : minGeneration ≠ 0 → dag.generation c ≤ s.lastGen) :
    PaintInv dag le one twos minGeneration (fun c' p' => c' = c ∧ p' ∈ ps) lost starts (paintParent le flags s p) ∧
      (paintParent le flags s p).lastGen = s.lastGen := by
  have hdone : ∀ m, Hands s.marks c m → (p, m) ∈ (paintParent le flags s p).marks := by
    intro m hm
    unfold paintParent
    split_ifs with hall
    · exact hall m ((hflags m).mpr hm)
    · exact mem_putDedup_marks.mpr (.inl (mem_addFlags.mpr (.inr ⟨rfl, (hflags m).mpr hm⟩)))
  have hkept : PaintInv dag le one twos minGeneration (fun c' p' => c' = c ∧ p' ∈ p :: ps) lost starts
      (paintParent le flags s p) ∧ (paintParent le flags s p).lastGen = s.lastGen := by
    unfold paintParent
    split_ifs with hall
    · exact ⟨h, rfl⟩
    · exact ⟨h.put hle (h.mayGet hp hflags hcolour) fun hmin => (generation_le_of_parent hp).trans (hgen hmin),
        (putDedup_rest _ p).2⟩
  refine ⟨hkept.1.mono_busy ?_, hkept.2⟩
  rintro c' p' - - ⟨rfl, hp'⟩
  cases hp' with
  | head => exact .inr fun m hm => hdone m ((hands_paintParent hp m).mp hm)
  | tail _ hp' => exact .inl ⟨rfl, hp'⟩

lemma PaintInv.parents (hle : QueueOrder le) {c : C} {ps : List C} (hps : ∀ p ∈ ps, p ∈ dag.parents c)
    (h : PaintInv dag le one twos minGeneration (fun c' p' => c' = c ∧ p' ∈ ps) lost starts s)
    {flags : List Mark} (hflags : ∀ m, m ∈ flags ↔ Hands s.marks c m)
    (hcolour : (c, .parent1) ∈ s.marks ∨ (c, .parent2) ∈ s.marks)
    (hgen : minGeneration ≠ 0 → dag.generation c ≤ s.lastGen) :
    PaintInv dag le one twos minGeneration (fun _ _ => False) lost starts (ps.foldl (paintParent le flags) s) := by
  induction ps generalizing s with
  | nil => exact h.mono_busy fun c' p' _ _ hb => by simp at hb
  | cons p ps ih =>
    have hp := hps p (List.mem_cons_self ..)
    obtain ⟨hnext, hlast⟩ := h.parent hle hp hflags hcolour hgen
    have hsub := @marks_subset_paintParent _ le _ flags s p
    exact ih (fun q hq => hps q (List.mem_cons_of_mem _ hq)) hnext
      (fun m => (hflags m).trans (hands_paintParent hp m).symm) (hcolour.imp (@hsub _) (@hsub _))
      (fun hmin => hlast ▸ hgen hmin)

lemma PaintInv.get (h : PaintInv dag le one twos minGeneration (fun _ _ => False) (fun _ => False) starts s)
    {bound c : C} {queue : List C} (hmax : s.maxNonstale = some bound) (hqueue : s.queue = c :: queue)
    (hstarts : ∀ x ∈ starts, x.2 ≠ .enqueued) :
    PaintInv dag le one twos minGeneration (fun c' p' => c' = c ∧ p' ∈ dag.parents c) (fun c' => c' = c) starts
      (nonstaleQueueGetDedup s c queue) := by
  have hnodup := h.nodup
  rw [hqueue] at hnodup
  obtain ⟨hcq, hnodup⟩ := List.nodup_cons.mp hnodup
  have hmem : ∀ {d m}, (d, m) ∈ (nonstaleQueueGetDedup s c queue).marks ↔
      (d, m) ∈ s.marks ∧ ¬ (d = c ∧ m = .enqueued) := by
    intro d m
    simp [nonstaleQueueGetDedup, and_comm]
  have hpaint : ∀ {d m}, m ≠ .enqueued → ((d, m) ∈ (nonstaleQueueGetDedup s c queue).marks ↔ (d, m) ∈ s.marks) := by
    intro d m hm
    rw [hmem]
    simp [hm]
  have hsorted := h.sorted
  rw [hqueue] at hsorted
  have hout : ∀ {d}, d ∉ queue → d ≠ c → d ∉ s.queue := by
    intro d hd hne
    rw [hqueue, List.mem_cons, not_or]
    exact ⟨hne, hd⟩
  have hhands : ∀ {d m}, Hands (nonstaleQueueGetDedup s c queue).marks d m ↔ Hands s.marks d m := by
    intro d m
    cases m <;> simp [Hands, hpaint]
  have hqueue' : (nonstaleQueueGetDedup s c queue).queue = queue := rfl
  refine ⟨⟨?_, ?_, ?_, ?_, ?_, ?_⟩, ?_, hnodup, (List.pairwise_cons.mp hsorted).2, ?_, ?_, ?_, h.result_nodup,
    ?_, ?_⟩
  · exact fun d hd => h.parent1 d (hmem.mp hd).1
  · exact fun d hd => h.parent2 d (hmem.mp hd).1
  · exact fun d hd => h.stale d (hmem.mp hd).1
  · intro d m hd hm
    obtain ⟨h1, h2⟩ := h.both d m (hmem.mp hd).1 hm
    exact ⟨(hpaint (by simp)).mpr h1, (hpaint (by simp)).mpr h2⟩
  · intro d m hd
    obtain ⟨start, hstart, hpath⟩ := h.painted d m (hmem.mp hd).1
    refine ⟨start, hstart, hpath.mono fun e he _ => ?_⟩
    obtain ⟨m', hm', hin⟩ := he.flagged
    refine ⟨m', hm', (hpaint ?_).mpr hin⟩
    rintro rfl
    simp at hm'
  · intro x hx
    exact hmem.mpr ⟨h.starts_sub hx, fun hxc => hstarts x hx hxc.2⟩
  · intro d
    rw [hmem, h.enqueued, hqueue, hqueue', List.mem_cons]
    constructor
    · rintro ⟨rfl | hd, hne⟩
      · exact absurd ⟨rfl, rfl⟩ hne
      · exact hd
    · intro hd
      exact ⟨.inr hd, fun hdc => hcq (hdc.1 ▸ hd)⟩
  · have hb := h.bounded
    rw [hmax, hqueue] at hb
    obtain ⟨before, after, hsplit, hafter⟩ := hb
    have hafter' : ∀ e ∈ after, (e, Mark.stale) ∈ (nonstaleQueueGetDedup s c queue).marks :=
      fun e he => (hpaint (by simp)).mpr (hafter e he)
    simp only [nonstaleQueueGetDedup, hmax]
    cases before with
    | nil =>
      obtain ⟨rfl, rfl⟩ := List.cons.inj hsplit
      rw [if_pos rfl]
      exact hafter'
    | cons first before =>
      obtain ⟨rfl, rfl⟩ := List.cons.inj hsplit
      have hne : bound ≠ c := by
        rintro rfl
        exact hcq (by simp)
      rw [if_neg (by simpa using hne)]
      exact ⟨before, after, rfl, hafter'⟩
  · intro hmin d hd
    exact h.lastGen hmin d (hqueue ▸ List.mem_cons_of_mem _ hd)
  · exact fun d => (hpaint (by simp)).trans (h.mem_result d)
  · intro d hd p hp hbusy m hm
    have hdc : d ≠ c := by
      rintro rfl
      exact hbusy ⟨rfl, hp⟩
    have := h.handed d (hout hd hdc) p hp id m (hhands.mp hm)
    refine (hpaint ?_).mpr this
    rintro rfl
    exact hm
  · intro d hd hlost h1 h2 hstale
    exact (hpaint (by simp)).mpr (h.found d (hout hd hlost) id ((hpaint (by simp)).mp h1) ((hpaint (by simp)).mp h2)
      fun hin => hstale ((hpaint (by simp)).mpr hin))

lemma paintFlags_eq_both {marks : Marks C} {c : C} :
    paintFlags marks c = [.parent1, .parent2] ↔
      (c, .parent1) ∈ marks ∧ (c, .parent2) ∈ marks ∧ (c, .stale) ∉ marks := by
  by_cases h1 : (c, Mark.parent1) ∈ marks <;> by_cases h2 : (c, Mark.parent2) ∈ marks <;>
    by_cases h3 : (c, Mark.stale) ∈ marks <;> simp [paintFlags, h1, h2, h3]

lemma PaintSound.mem_paintFlags {marks : Marks C} (h : PaintSound dag one twos starts marks) {c : C}
    (hne : paintFlags marks c ≠ [.parent1, .parent2]) (m : Mark) : m ∈ paintFlags marks c ↔ Hands marks c m := by
  cases m with
  | parent1 => simp [paintFlags, Hands]
  | parent2 => simp [paintFlags, Hands]
  | stale =>
    have hstale : Mark.stale ∈ paintFlags marks c ↔ (c, .stale) ∈ marks := by simp [paintFlags]
    rw [hstale]
    constructor
    · exact fun hc => h.both c .stale hc (.inl rfl)
    · rintro ⟨h1, h2⟩
      by_contra hc
      exact hne (paintFlags_eq_both.mpr ⟨h1, h2, hc⟩)
  | result => simp [paintFlags, Hands]
  | enqueued => simp [paintFlags, Hands]

def Settled (dag : CommitDag C) (marks : Marks C) (c : C) : Prop :=
  (∀ p ∈ dag.parents c, ∀ m, Hands marks c m → (p, m) ∈ marks) ∧
    ((c, .parent1) ∈ marks → (c, .parent2) ∈ marks → (c, .stale) ∉ marks → (c, .result) ∈ marks)

/-- What the painting leaves. A commit that is not settled is stale or below the smallest
generation, or the walk has stopped at its first result. -/
structure Painted (dag : CommitDag C) (one : C) (twos : List C) (minGeneration : Nat) (findAll : Bool)
    (ordered : Prop) (starts marks : Marks C) (result : List C) : Prop
    extends PaintSound dag one twos starts marks where
  mem_result : ∀ c, (c, .result) ∈ marks ↔ c ∈ result
  result_nodup : result.Nodup
  settled : ∀ c, Settled dag marks c ∨ (c, .stale) ∈ marks ∨ dag.generation c < minGeneration ∨
    (findAll = false ∧ ∃ b ∈ result, dag.generation b < generationNumberInfinity ∧ (b, .stale) ∉ marks ∧
      (ordered → dag.generation c ≤ dag.generation b))

def GenOrdered (dag : CommitDag C) (le : C → C → Bool) : Prop :=
  ∀ a b, le a b = true → dag.generation b ≤ dag.generation a

structure Taken (dag : CommitDag C) (le : C → C → Bool) (one : C) (twos : List C) (minGeneration : Nat)
    (starts : Marks C) (c : C) (s : PaintState C) : Prop
    extends PaintInv dag le one twos minGeneration (fun c' p' => c' = c ∧ p' ∈ dag.parents c)
      (fun c' => c' = c) starts s where
  first : ∀ d ∈ s.queue, le c d = true
  not_mem : c ∉ s.queue
  coloured : (c, .parent1) ∈ s.marks ∨ (c, .parent2) ∈ s.marks
  bound : minGeneration ≠ 0 → dag.generation c ≤ s.lastGen

lemma PaintInv.taken (h : PaintInv dag le one twos minGeneration (fun _ _ => False) (fun _ => False) starts s)
    {bound c : C} {queue : List C} (hmax : s.maxNonstale = some bound) (hqueue : s.queue = c :: queue)
    (hstarts : ∀ x ∈ starts, x.2 ≠ .enqueued) :
    Taken dag le one twos minGeneration starts c (nonstaleQueueGetDedup s c queue) where
  toPaintInv := h.get hmax hqueue hstarts
  first := by
    have hsorted := h.sorted
    rw [hqueue] at hsorted
    exact (List.pairwise_cons.mp hsorted).1
  not_mem := by
    have hnodup := h.nodup
    rw [hqueue] at hnodup
    exact (List.nodup_cons.mp hnodup).1
  coloured := by
    have henq : (c, Mark.enqueued) ∈ s.marks := (h.enqueued c).mpr (by simp [hqueue])
    obtain ⟨start, -, hpath⟩ := h.painted c .enqueued henq
    obtain ⟨m, hm, hin⟩ := hpath.flagged
    have hin' : (c, m) ∈ (nonstaleQueueGetDedup s c queue).marks := by
      simp only [nonstaleQueueGetDedup, Finset.mem_erase, ne_eq, Prod.mk.injEq, not_and]
      refine ⟨fun _ => ?_, hin⟩
      rintro rfl
      simp at hm
    simp only [List.mem_cons, List.not_mem_nil, or_false] at hm
    obtain rfl | rfl := hm
    · exact .inl hin'
    · exact .inr hin'
  bound hmin := h.lastGen hmin c (by simp [hqueue])

omit [DecidableEq C] in
lemma Taken.settled {c d : C} (h : Taken dag le one twos minGeneration starts c s) (hd : d ∉ s.queue) (hne : d ≠ c) :
    Settled dag s.marks d :=
  ⟨fun p hp m hm => h.handed d hd p hp (fun hb => hne hb.1) m hm, h.found d hd hne⟩

omit [DecidableEq C] in
lemma Taken.note (h : Taken dag le one twos minGeneration starts c s) (hgen : minGeneration ≠ 0 → GenOrdered dag le) :
    Taken dag le one twos minGeneration starts c { s with lastGen := dag.generation c } :=
  { h with
    lastGen := fun hmin d hd => hgen hmin c d (h.first d hd)
    bound := fun _ => le_rfl }

lemma Taken.addResult {c : C} (h : Taken dag le one twos minGeneration starts c s)
    (h1 : (c, .parent1) ∈ s.marks) (h2 : (c, .parent2) ∈ s.marks) (hnew : (c, .result) ∉ s.marks) :
    Taken dag le one twos minGeneration starts c
      { s with marks := insert (c, .result) s.marks, result := s.result ++ [c] } := by
  have hpaint : ∀ {d m}, m ≠ .result → ((d, m) ∈ insert (c, Mark.result) s.marks ↔ (d, m) ∈ s.marks) := by
    intro d m hm
    simp [hm]
  have hhands : ∀ {d m}, Hands (insert (c, Mark.result) s.marks) d m ↔ Hands s.marks d m := by
    intro d m
    cases m <;> simp [Hands]
  have hpath : ∀ {start d}, FlaggedPath dag [.parent1, .parent2] s.marks start d →
      FlaggedPath dag [.parent1, .parent2] (insert (c, Mark.result) s.marks) start d :=
    fun hp => hp.grow (Finset.subset_insert _ _)
  refine ⟨⟨⟨?_, ?_, ?_, ?_, ?_, ?_⟩, ?_, h.nodup, h.sorted, ?_, h.lastGen, ?_, ?_, ?_, ?_⟩, h.first, h.not_mem, ?_,
    h.bound⟩
  · exact fun d hd => h.parent1 d ((hpaint (by simp)).mp hd)
  · exact fun d hd => h.parent2 d ((hpaint (by simp)).mp hd)
  · exact fun d hd => h.stale d ((hpaint (by simp)).mp hd)
  · intro d m hd hm
    rw [hpaint (by simp), hpaint (by simp)]
    obtain hd | hd := Finset.mem_insert.mp hd
    · obtain ⟨rfl, rfl⟩ := Prod.mk.inj hd
      exact ⟨h1, h2⟩
    · exact h.both d m hd hm
  · intro d m hd
    obtain hd | hd := Finset.mem_insert.mp hd
    · obtain ⟨rfl, rfl⟩ := Prod.mk.inj hd
      obtain ⟨start, hstart, hp⟩ := h.painted d .parent1 h1
      exact ⟨start, hstart, hpath hp⟩
    · obtain ⟨start, hstart, hp⟩ := h.painted d m hd
      exact ⟨start, hstart, hpath hp⟩
  · exact h.starts_sub.trans (Finset.subset_insert _ _)
  · exact fun d => (hpaint (by simp)).trans (h.enqueued d)
  · exact h.bounded.mono fun d hd => Finset.mem_insert_of_mem hd
  · intro d
    simp only [Finset.mem_insert, Prod.mk.injEq, and_true, List.mem_append, List.mem_singleton]
    rw [h.mem_result, or_comm]
  · have hnot : c ∉ s.result := fun hin => hnew ((h.mem_result c).mpr hin)
    exact List.nodup_append.mpr ⟨h.result_nodup, List.nodup_singleton c, by
      rintro a ha b hb rfl
      rw [List.mem_singleton.mp hb] at ha
      exact hnot ha⟩
  · intro d hd p hp hbusy m hm
    exact Finset.mem_insert_of_mem (h.handed d hd p hp hbusy m (hhands.mp hm))
  · intro d hd hlost hd1 hd2 hstale
    exact Finset.mem_insert_of_mem (h.found d hd hlost ((hpaint (by simp)).mp hd1) ((hpaint (by simp)).mp hd2)
      fun hin => hstale (Finset.mem_insert_of_mem hin))
  · rw [hpaint (by simp), hpaint (by simp)]
    exact h.coloured

lemma Taken.parents (hle : QueueOrder le) {c : C} (h : Taken dag le one twos minGeneration starts c s)
    {flags : List Mark} (hflags : ∀ m, m ∈ flags ↔ Hands s.marks c m)
    (hfound : (c, .parent1) ∈ s.marks → (c, .parent2) ∈ s.marks → (c, .stale) ∉ s.marks → (c, .result) ∈ s.marks) :
    PaintInv dag le one twos minGeneration (fun _ _ => False) (fun _ => False) starts
      ((dag.parents c).foldl (paintParent le flags) s) := by
  have hnone : PaintInv dag le one twos minGeneration (fun c' p' => c' = c ∧ p' ∈ dag.parents c)
      (fun _ => False) starts s :=
    { h.toPaintInv with
      found := by
        intro d hd _ h1 h2 hstale
        by_cases hdc : d = c
        · subst hdc
          exact hfound h1 h2 hstale
        · exact h.found d hd hdc h1 h2 hstale }
  exact hnone.parents hle (fun p hp => hp) hflags h.coloured h.bound

/-- What a round of the loop comes to: the next state keeps the invariant, the last one is painted. -/
def RoundKeeps (dag : CommitDag C) (le : C → C → Bool) (one : C) (twos : List C) (minGeneration : Nat)
    (findAll : Bool) (starts : Marks C) : PaintState C ⊕ PaintResult C → Prop
  | .inl s => PaintInv dag le one twos minGeneration (fun _ _ => False) (fun _ => False) starts s
  | .inr (.done marks result) => Painted dag one twos minGeneration findAll (GenOrdered dag le) starts marks result
  | .inr .bug => False

lemma roundKeeps_paintCommit (hle : QueueOrder le) (hgen : minGeneration ≠ 0 → GenOrdered dag le) (findAll : Bool)
    {c : C} (h : Taken dag le one twos minGeneration starts c s) :
    RoundKeeps dag le one twos minGeneration findAll starts (paintCommit dag le minGeneration findAll s c) := by
  have hnote := h.note hgen
  have hhands : (c, Mark.parent1) ∈ s.marks → (c, Mark.parent2) ∈ s.marks →
      ∀ m, m ∈ [Mark.parent1, .parent2, .stale] ↔ Hands s.marks c m := by
    intro h1 h2 m
    cases m <;> simp [Hands, h1, h2]
  simp only [paintCommit]
  split_ifs with hbug hlow hflags hresult hstop
  · exact absurd (h.bound hbug.1) (not_le.mpr hbug.2)
  · have hmin : minGeneration ≠ 0 := by omega
    refine ⟨h.toPaintSound, h.mem_result, h.result_nodup, fun d => ?_⟩
    by_cases hd : d = c
    · subst hd
      exact .inr (.inr (.inl hlow))
    by_cases hq : d ∈ s.queue
    · exact .inr (.inr (.inl ((hgen hmin c d (h.first d hq)).trans_lt hlow)))
    · exact .inl (h.settled hq hd)
  · obtain ⟨h1, h2, -⟩ := paintFlags_eq_both.mp hflags
    exact hnote.parents hle (hhands h1 h2) fun _ _ _ => hresult
  · obtain ⟨h1, h2, hstale⟩ := paintFlags_eq_both.mp hflags
    have hadd := hnote.addResult h1 h2 hresult
    simp only [Bool.and_eq_true, Bool.not_eq_true', decide_eq_true_eq] at hstop
    refine ⟨hadd.toPaintSound, hadd.mem_result, hadd.result_nodup, fun d => ?_⟩
    have hbest : (c, Mark.stale) ∉ insert (c, Mark.result) s.marks := by
      simpa using hstale
    have hearly : (GenOrdered dag le → dag.generation d ≤ dag.generation c) →
        findAll = false ∧ ∃ b ∈ s.result ++ [c], dag.generation b < generationNumberInfinity ∧
          (b, Mark.stale) ∉ insert (c, Mark.result) s.marks ∧
          (GenOrdered dag le → dag.generation d ≤ dag.generation b) :=
      fun hd => ⟨hstop.1, c, by simp, hstop.2, hbest, hd⟩
    by_cases hd : d = c
    · exact .inr (.inr (.inr (hearly fun _ => hd ▸ le_rfl)))
    by_cases hq : d ∈ s.queue
    · exact .inr (.inr (.inr (hearly fun ho => ho c d (h.first d hq))))
    · exact .inl (hadd.settled hq hd)
  · obtain ⟨h1, h2, -⟩ := paintFlags_eq_both.mp hflags
    have hadd := hnote.addResult h1 h2 hresult
    refine hadd.parents hle (fun m => (hhands h1 h2 m).trans ?_) fun _ _ _ => Finset.mem_insert_self _ _
    cases m <;> simp [Hands]
  · exact hnote.parents hle (h.toPaintSound.mem_paintFlags hflags) fun h1 h2 hstale =>
      absurd (paintFlags_eq_both.mpr ⟨h1, h2, hstale⟩) hflags

lemma roundKeeps_paintStep (hle : QueueOrder le) (hgen : minGeneration ≠ 0 → GenOrdered dag le) (findAll : Bool)
    (hstarts : ∀ x ∈ starts, x.2 ≠ .enqueued)
    (h : PaintInv dag le one twos minGeneration (fun _ _ => False) (fun _ => False) starts s) :
    RoundKeeps dag le one twos minGeneration findAll starts (paintStep dag le minGeneration findAll s) := by
  cases hmax : s.maxNonstale with
  | none =>
    have hbounded := h.bounded
    rw [hmax] at hbounded
    simp only [paintStep, hmax]
    refine ⟨h.toPaintSound, h.mem_result, h.result_nodup, fun d => ?_⟩
    by_cases hq : d ∈ s.queue
    · exact .inr (.inl (hbounded d hq))
    · exact .inl ⟨fun p hp m hm => h.handed d hq p hp id m hm, h.found d hq id⟩
  | some bound =>
    cases hqueue : s.queue with
    | nil =>
      obtain ⟨before, after, hsplit, -⟩ := hmax ▸ h.bounded
      simp [hqueue] at hsplit
    | cons c queue =>
      simp only [paintStep, hmax, hqueue]
      exact roundKeeps_paintCommit hle hgen findAll (h.taken hmax hqueue hstarts)

def startMarks (one : C) (twos : List C) : Marks C :=
  insert (one, .parent1) (twos.map (fun two => (two, Mark.parent2))).toFinset

lemma PaintInv.start_two (hle : QueueOrder le)
    (h : PaintInv dag le one twos minGeneration (fun _ _ => False) (fun _ => False) starts s) {two : C}
    (htwo : two ∈ twos) (hgen : minGeneration ≠ 0 → dag.generation two ≤ s.lastGen) :
    PaintInv dag le one twos minGeneration (fun _ _ => False) (fun _ => False) (insert (two, .parent2) starts)
      (nonstaleQueuePutDedup le { s with marks := addFlags s.marks two [.parent2] } two) := by
  have hput := h.put hle (p := two)
    (show MayGet dag one twos s.marks two [.parent2] from
    ⟨by simp, by simp, fun _ => ⟨two, htwo, .refl⟩, by simp, by simp, .inl (List.mem_cons_of_mem _ htwo)⟩) hgen
  refine { hput with starts_sub := fun x hx => ?_ }
  obtain rfl | hx := Finset.mem_insert.mp hx
  · exact mem_putDedup_marks.mpr (.inl (mem_addFlags.mpr (.inr ⟨rfl, List.mem_singleton.mpr rfl⟩)))
  · exact hput.starts_sub hx

lemma paintInv_start (hle : QueueOrder le) (one : C) (twos : List C) (minGeneration : Nat) :
    PaintInv dag le one twos minGeneration (fun _ _ => False) (fun _ => False) (startMarks one twos)
      (paintStart le ∅ one twos) := by
  have hempty : PaintInv dag le one twos minGeneration (fun _ _ => False) (fun _ => False) ∅
      ⟨∅, [], none, generationNumberInfinity, []⟩ := by
    refine ⟨⟨?_, ?_, ?_, ?_, ?_, Finset.Subset.refl _⟩, ?_, List.nodup_nil, List.Pairwise.nil, ?_, ?_, ?_,
      List.nodup_nil, ?_, ?_⟩
    all_goals first | (intro c hc; simp at hc; done) | skip
    · simp
    · simp
    · simp
    · simp
    · simp
    · intro c _ p _ _ m hm
      cases m <;> simp [Hands] at hm
    · simp
  have hone : PaintInv dag le one twos minGeneration (fun _ _ => False) (fun _ => False) {(one, .parent1)}
      (nonstaleQueuePutDedup le ⟨addFlags ∅ one [.parent1], [], none, generationNumberInfinity, []⟩ one) := by
    have hput := hempty.put hle (p := one)
      (show MayGet dag one twos ∅ one [.parent1] from
        ⟨by simp, fun _ => .refl, by simp, by simp, by simp, .inl (List.mem_cons_self ..)⟩)
      (fun _ => dag.generation_le one)
    refine { hput with starts_sub := fun x hx => ?_ }
    rw [Finset.mem_singleton] at hx
    subst hx
    exact mem_putDedup_marks.mpr (.inl (mem_addFlags.mpr (.inr ⟨rfl, List.mem_singleton.mpr rfl⟩)))
  have hfold : ∀ (rest : List C) (starts : Marks C) (s : PaintState C), (∀ two ∈ rest, two ∈ twos) →
      s.lastGen = generationNumberInfinity →
      PaintInv dag le one twos minGeneration (fun _ _ => False) (fun _ => False) starts s →
      PaintInv dag le one twos minGeneration (fun _ _ => False) (fun _ => False)
        (starts ∪ (rest.map (fun two => (two, Mark.parent2))).toFinset)
        (rest.foldl (fun s two => nonstaleQueuePutDedup le { s with marks := addFlags s.marks two [.parent2] } two) s) := by
    intro rest
    induction rest with
    | nil =>
      intro starts s _ _ h
      simpa using h
    | cons two rest ih =>
      intro starts s hrest hlast h
      have hnext := h.start_two hle (hrest two (List.mem_cons_self ..)) fun _ => hlast ▸ dag.generation_le two
      have hlast' := (@putDedup_rest _ le _ { s with marks := addFlags s.marks two [.parent2] } two).2.trans hlast
      have := ih _ _ (fun t ht => hrest t (List.mem_cons_of_mem _ ht)) hlast' hnext
      rw [List.map_cons, List.toFinset_cons, Finset.union_insert, ← Finset.insert_union]
      exact this
  have := hfold twos _ _ (fun two h => h) (putDedup_rest _ _).2 hone
  rwa [startMarks, Finset.insert_eq]

omit [DecidableEq C] in
lemma Painted.perm {findAll : Bool} {ordered : Prop} {marks : Marks C} {result result' : List C}
    (h : Painted dag one twos minGeneration findAll ordered starts marks result) (hperm : result'.Perm result) :
    Painted dag one twos minGeneration findAll ordered starts marks result' where
  toPaintSound := h.toPaintSound
  mem_result c := (h.mem_result c).trans hperm.mem_iff.symm
  result_nodup := hperm.nodup_iff.mpr h.result_nodup
  settled c := by
    obtain hc | hc | hc | ⟨hall, b, hb, hc⟩ := h.settled c
    · exact .inl hc
    · exact .inr (.inl hc)
    · exact .inr (.inr (.inl hc))
    · exact .inr (.inr (.inr ⟨hall, b, hperm.mem_iff.mpr hb, hc⟩))

lemma startMarks_ne (one : C) (twos : List C) : ∀ x ∈ startMarks one twos, x.2 ≠ .enqueued := by
  intro x hx
  simp only [startMarks, Finset.mem_insert, List.mem_toFinset, List.mem_map] at hx
  obtain rfl | ⟨two, -, rfl⟩ := hx <;> simp

theorem paintWith_painted [Fintype C] (hle : QueueOrder le) (hgen : minGeneration ≠ 0 → GenOrdered dag le)
    (findAll : Bool) (one : C) {twos : List C} (htwos : twos ≠ []) :
    ∃ marks result, paintWith dag le ∅ one twos minGeneration findAll = .done marks result ∧
      Painted dag one twos minGeneration findAll (GenOrdered dag le) (startMarks one twos) marks result := by
  have hstep : ∀ s, PaintInv dag le one twos minGeneration (fun _ _ => False) (fun _ => False) (startMarks one twos) s →
      RoundKeeps dag le one twos minGeneration findAll (startMarks one twos)
        (paintStep dag le minGeneration findAll s) := by
    intro s h
    exact roundKeeps_paintStep hle hgen findAll (startMarks_ne one twos) h
  have hend := loop_inv _ _ (paintStep_size dag le minGeneration findAll)
    (PaintInv dag le one twos minGeneration (fun _ _ => False) (fun _ => False) (startMarks one twos))
    (fun r => RoundKeeps dag le one twos minGeneration findAll (startMarks one twos) (.inr r))
    (fun s s' h hs => by
      have := hstep s h
      rwa [hs] at this)
    (fun s r h hs => by
      have := hstep s h
      rwa [hs] at this)
    (paintInv_start hle one twos minGeneration)
  unfold paintWith
  rw [if_neg htwos]
  cases hloop : loop (paintStep dag le minGeneration findAll) paintSize
    (paintStep_size dag le minGeneration findAll) (paintStart le ∅ one twos) with
  | bug =>
    rw [hloop] at hend
    exact hend.elim
  | done marks result =>
    rw [hloop] at hend
    exact ⟨marks, _, rfl, Painted.perm hend (List.perm_insertionSort _ _)⟩

end

end GitCore.Reach
