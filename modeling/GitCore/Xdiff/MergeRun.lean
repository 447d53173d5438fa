import GitCore.Xdiff.MergeSpec

/-!
# The loops of a three-way merge

What one pass of `xdl_do_merge` does to the hunks, and what all passes build. The statements about a
change of the second side are those about a change of the first side with the sides in each other's place.
-/

namespace GitCore.Xdiff

@[simp]
lemma swapMode_swapMode (mode : Nat) : swapMode (swapMode mode) = mode := by
  unfold swapMode
  split_ifs <;> omega

@[simp]
lemma XdMerge.swap_swap (m : XdMerge) : m.swap.swap = m := by
  simp [XdMerge.swap]

@[simp]
lemma map_swap_map_swap (hunks : List XdMerge) : (hunks.map XdMerge.swap).map XdMerge.swap = hunks := by
  rw [List.map_map, show XdMerge.swap ∘ XdMerge.swap = id from funext XdMerge.swap_swap, List.map_id]

lemma swapMode_inj {mode mode' : Nat} : swapMode mode = swapMode mode' ↔ mode = mode' := by
  refine ⟨fun h => ?_, congrArg swapMode⟩
  rw [← swapMode_swapMode mode, h, swapMode_swapMode]

lemma swapMode_eq_zero {mode : Nat} : swapMode mode = 0 ↔ mode = 0 :=
  (swapMode_inj : swapMode mode = swapMode 0 ↔ mode = 0)

lemma appendMerge_swap (acc : List XdMerge) (mode : Nat) (i0 chg0 i1 chg1 i2 chg2 : Int) :
    appendMerge (acc.map XdMerge.swap) (swapMode mode) i0 chg0 i2 chg2 i1 chg1 =
      (appendMerge acc mode i0 chg0 i1 chg1 i2 chg2).map XdMerge.swap := by
  cases acc with
  | nil => rfl
  | cons m rest =>
    rw [List.map_cons, appendMerge, appendMerge]
    by_cases htouch : i1 ≤ m.i1 + m.chg1 ∨ i2 ≤ m.i2 + m.chg2
    · have htouch' : i2 ≤ m.swap.i1 + m.swap.chg1 ∨ i1 ≤ m.swap.i2 + m.swap.chg2 := htouch.symm
      rw [if_pos htouch, if_pos htouch']
      by_cases hmode : mode = m.mode
      · simp [XdMerge.swap, hmode]
      · simp [XdMerge.swap, hmode, swapMode_inj, swapMode_eq_zero.mpr]
    · have htouch' : ¬(i2 ≤ m.swap.i1 + m.swap.chg1 ∨ i1 ≤ m.swap.i2 + m.swap.chg2) := fun h => htouch h.symm
      rw [if_neg htouch, if_neg htouch']
      rfl

lemma appendConflict_eq (c1 c2 : XdChange) (acc : List XdMerge) :
    appendConflict c1 c2 acc =
      let s0 : Nat := min c1.i1 c2.i1
      let t0 : Nat := max c1.end1 c2.end1
      let s1 : Int := c1.i2 - (c1.i1 - s0)
      let s2 : Int := c2.i2 - (c2.i1 - s0)
      appendMerge acc 0 s0 (t0 - s0) s1 (c1.end2 + (t0 - c1.end1) - s1) s2 (c2.end2 + (t0 - c2.end1) - s2) := by
  unfold appendConflict XdChange.end1 XdChange.end2
  dsimp only
  split_ifs <;> congr 1 <;> push_cast <;> omega

lemma appendConflict_swap (c1 c2 : XdChange) (acc : List XdMerge) :
    appendConflict c2 c1 (acc.map XdMerge.swap) = (appendConflict c1 c2 acc).map XdMerge.swap := by
  rw [appendConflict_eq, appendConflict_eq]
  dsimp only
  rw [min_comm, max_comm]
  exact appendMerge_swap acc 0 _ _ _ _ _ _

lemma Covered.swap {x : Nat} {acc : List XdMerge} (h : Covered x acc) : Covered x (acc.map XdMerge.swap) := by
  obtain ⟨m, hm, hmode, hx⟩ := h
  exact ⟨m.swap, List.mem_map_of_mem hm, swapMode_eq_zero.mpr hmode, hx⟩

lemma Covered.append {x : Nat} {acc : List XdMerge} {mode : Nat} {i0 chg0 i1 chg1 i2 chg2 : Int} (h : Covered x acc)
    (hend : ∀ m ∈ acc.head?, m.i0 + m.chg0 ≤ i0 + chg0) :
    Covered x (appendMerge acc mode i0 chg0 i1 chg1 i2 chg2) := by
  obtain ⟨m', hm', hmode, hx⟩ := h
  cases acc with
  | nil => simp at hm'
  | cons m rest =>
    have hend := hend m rfl
    rw [appendMerge]
    by_cases htouch : i1 ≤ m.i1 + m.chg1 ∨ i2 ≤ m.i2 + m.chg2
    · rw [if_pos htouch]
      obtain rfl | hm' := List.mem_cons.mp hm'
      · refine ⟨_, List.mem_cons_self, ?_, hx.1, ?_⟩
        · dsimp only
          split_ifs <;> [rfl; exact hmode]
        · dsimp only
          omega
      · exact ⟨m', List.mem_cons_of_mem _ hm', hmode, hx⟩
    · rw [if_neg htouch]
      exact ⟨m', List.mem_cons_of_mem _ hm', hmode, hx⟩

variable {α : Type*} {r : α → α → Prop} {base side1 side2 : List α}

section States

variable (r base side1 side2)

def InConflict (acc : List XdMerge) (s t : Pos) : Prop :=
  ∃ m rest e, acc = m :: rest ∧ Built r base side1 side2 rest e ∧ Between r base side1 side2 e s ∧
    HunkAt r base side1 side2 m s t ∧ m.mode = 0

def Synced (s1 s2 : List XdChange) (acc : List XdMerge) : Prop :=
  ∃ e p, Built r base side1 side2 acc e ∧ Between r base side1 side2 e p ∧
    ValidScript r base side1 p.p0 p.p1 s1 ∧ ValidScript r base side2 p.p0 p.p2 s2 ∧
    (acc ≠ [] → (∀ c ∈ s1.head?, p.p0 < c.i1) ∧ ∀ c ∈ s2.head?, p.p0 < c.i1)

def HalfOpen (s1 s2 : List XdChange) (acc : List XdMerge) : Prop :=
  ∃ c1 n1 s q0 q2, s1 = c1 :: n1 ∧
    InConflict r base side1 side2 acc s ⟨c1.end1, c1.end2, q2 + (c1.end1 - q0)⟩ ∧
    ValidTail r base side1 c1 n1 ∧ ValidScript r base side2 q0 q2 s2 ∧ (∀ c ∈ s2.head?, q0 < c.i1) ∧
    s.p0 ≤ c1.i1 ∧ c1.i1 ≤ q0 ∧ q0 < c1.end1 ∧ s.p2 ≤ q2

def MergeState (s1 s2 : List XdChange) (acc : List XdMerge) : Prop :=
  Synced r base side1 side2 s1 s2 acc ∨ HalfOpen r base side1 side2 s1 s2 acc ∨
    HalfOpen r base side2 side1 s2 s1 (acc.map XdMerge.swap)

def Touched (c1 : XdChange) (n1 : List XdChange) (c2 : XdChange) (n2 : List XdChange) (acc : List XdMerge) : Prop :=
  ∃ s, InConflict r base side1 side2 acc s
      ⟨max c1.end1 c2.end1, c1.end2 + (c2.end1 - c1.end1), c2.end2 + (c1.end1 - c2.end1)⟩ ∧
    ValidTail r base side1 c1 n1 ∧ ValidTail r base side2 c2 n2 ∧ c1.i1 ≤ c2.end1 ∧ c2.i1 ≤ c1.end1 ∧
    (s.p0 ≤ c1.i1 ∧ s.p0 ≤ c2.i1) ∧ s.p1 ≤ c1.end2 ∧ s.p2 ≤ c2.end2

end States

variable {acc : List XdMerge}

lemma InConflict.built {s t : Pos} (h : InConflict r base side1 side2 acc s t) :
    Built r base side1 side2 acc t := by
  obtain ⟨m, rest, e, rfl, hrest, hbetween, hm, -⟩ := h
  exact ⟨e, s, hrest, hbetween, hm⟩

lemma InConflict.le1 {s t : Pos} (h : InConflict r base side1 side2 acc s t) : s.p1 ≤ t.p1 := by
  obtain ⟨m, rest, e, -, -, -, hm, -⟩ := h
  exact hm.le1

lemma InConflict.swap (hsymm : ∀ x y, r x y → r y x) {acc : List XdMerge} {s t : Pos}
    (h : InConflict r base side1 side2 acc s t) :
    InConflict r base side2 side1 (acc.map XdMerge.swap) s.swap t.swap := by
  obtain ⟨m, rest, e, rfl, hrest, hbetween, hm, hmode⟩ := h
  exact ⟨m.swap, rest.map XdMerge.swap, e.swap, rfl, hrest.swap hsymm, hbetween.swap hsymm, hm.swap,
    swapMode_eq_zero.mpr hmode⟩

lemma Synced.swap (hsymm : ∀ x y, r x y → r y x) {s1 s2 : List XdChange} {acc : List XdMerge}
    (h : Synced r base side1 side2 s1 s2 acc) : Synced r base side2 side1 s2 s1 (acc.map XdMerge.swap) := by
  obtain ⟨e, p, hbuilt, hbetween, h1, h2, hnext⟩ := h
  refine ⟨e.swap, p.swap, hbuilt.swap hsymm, hbetween.swap hsymm, h2, h1, fun hacc => ?_⟩
  exact (hnext (fun h => hacc (by rw [h]; rfl))).symm

lemma MergeState.swap (hsymm : ∀ x y, r x y → r y x) {s1 s2 : List XdChange} {acc : List XdMerge}
    (h : MergeState r base side1 side2 s1 s2 acc) : MergeState r base side2 side1 s2 s1 (acc.map XdMerge.swap) := by
  obtain h | h | h := h
  · exact .inl (h.swap hsymm)
  · refine .inr (.inr ?_)
    rwa [map_swap_map_swap]
  · exact .inr (.inl h)

lemma Touched.swap (hsymm : ∀ x y, r x y → r y x) {c1 c2 : XdChange} {n1 n2 : List XdChange} {acc : List XdMerge}
    (h : Touched r base side1 side2 c1 n1 c2 n2 acc) :
    Touched r base side2 side1 c2 n2 c1 n1 (acc.map XdMerge.swap) := by
  obtain ⟨s, hopen, h1, h2, hc1, hc2, hs, hs1, hs2⟩ := h
  have hswap := hopen.swap hsymm
  refine ⟨s.swap, ?_, h2, h1, hc2, hc1, hs.symm, hs2, hs1⟩
  rwa [max_comm]

lemma Built.append {mode : Nat} {i0 chg0 i1 chg1 i2 chg2 : Int} {e s t : Pos}
    (h : Built r base side1 side2 acc e) (hbetween : Between r base side1 side2 e s)
    (hm : HunkAt r base side1 side2 ⟨mode, i0, chg0, i1, chg1, i2, chg2⟩ s t)
    (happart : acc ≠ [] → e.p1 < s.p1 ∧ e.p2 < s.p2) :
    appendMerge acc mode i0 chg0 i1 chg1 i2 chg2 = ⟨mode, i0, chg0, i1, chg1, i2, chg2⟩ :: acc ∧
      Built r base side1 side2 (appendMerge acc mode i0 chg0 i1 chg1 i2 chg2) t := by
  have heq : appendMerge acc mode i0 chg0 i1 chg1 i2 chg2 = ⟨mode, i0, chg0, i1, chg1, i2, chg2⟩ :: acc := by
    cases acc with
    | nil => rfl
    | cons m rest =>
      obtain ⟨h1, h2⟩ := happart (by simp)
      obtain ⟨a, b, -, -, hlast⟩ := h
      have hi1 := hm.i1
      have hi2 := hm.i2
      have hend1 := hlast.end1
      have hend2 := hlast.end2
      dsimp only at hi1 hi2
      rw [appendMerge, if_neg (by omega)]
  rw [heq]
  exact ⟨rfl, e, s, h, hbetween, hm⟩

lemma InConflict.append {mode : Nat} {i0 chg0 i1 chg1 i2 chg2 : Int} {s t t' : Pos}
    (h : InConflict r base side1 side2 acc s t) (htouch : i1 ≤ t.p1 ∨ i2 ≤ t.p2) (h0 : i0 + chg0 = t'.p0)
    (h1 : i1 + chg1 = t'.p1) (h2 : i2 + chg2 = t'.p2) (hle0 : t.p0 ≤ t'.p0) (hle1 : t.p1 ≤ t'.p1) (hle2 : s.p2 ≤ t'.p2) :
    InConflict r base side1 side2 (appendMerge acc mode i0 chg0 i1 chg1 i2 chg2) s t' := by
  obtain ⟨m, rest, e, rfl, hrest, hbetween, hm, hmode⟩ := h
  rw [appendMerge, if_pos (by rw [hm.end1, hm.end2]; exact htouch)]
  have hzero : (if mode ≠ m.mode then 0 else m.mode) = 0 := by
    split_ifs
    · rfl
    · exact hmode
  rw [hzero]
  refine ⟨_, rest, e, rfl, hrest, hbetween, ?_, rfl⟩
  obtain ⟨hi0, hi1, hi2, -, -, -, hs0, hs1, hs2, -⟩ := hm
  constructor <;> (try dsimp only) <;> omega

lemma Built.last {e : Pos} (h : Built r base side1 side2 acc e) :
    ∀ m ∈ acc.head?, m.i0 + m.chg0 = e.p0 := by
  cases acc with
  | nil => simp
  | cons m rest =>
    obtain ⟨a, b, -, -, hm⟩ := h
    simpa using hm.end0

section Steps

variable {c1 c2 : XdChange} {n1 n2 s1 s2 : List XdChange} {x : Nat}

lemma lt_nextChange {q : Nat} (hbase : q ≤ base.length) (h : ∀ c ∈ s2.head?, q < c.i1) : q ≤ nextChange base s2 := by
  cases s2 with
  | nil => exact hbase
  | cons c rest => exact (h c rfl).le

lemma Synced.first (h : Synced r base side1 side2 (c1 :: n1) s2 acc) (hnext : ∀ c ∈ s2.head?, c1.end1 < c.i1) :
    let acc' := appendMerge acc 1 c1.i1 c1.chg1 c1.i2 c1.chg2 (c1.i1 + nextOffset base side2 s2) c1.chg1
    Synced r base side1 side2 n1 s2 acc' ∧ ∀ x, Covered x acc → Covered x acc' := by
  obtain ⟨e, p, hbuilt, hbetween, h1, h2, happart⟩ := h
  obtain ⟨⟨hp0, hp1, hgap⟩, hend1, hend2, hapart1, hvalid⟩ := id h1
  have hlen := hgap.length_eq
  have hle1 : c1.i1 ≤ c1.end1 := Nat.le_add_right _ _
  have hle2 : c1.i2 ≤ c1.end2 := Nat.le_add_right _ _
  rw [length_segment (by omega), length_segment (by omega)] at hlen
  have hroom := lt_nextChange hend1 hnext
  obtain ⟨-, -, hoffset⟩ := h2.gap
  have hs := Between.advance h1 h2 (n := c1.i1 - p.p0) (by simp only [nextChange]; omega) (by omega)
  have ht : HunkAt r base side1 side2
      ⟨1, c1.i1, c1.chg1, c1.i2, c1.chg2, c1.i1 + nextOffset base side2 s2, c1.chg1⟩
      ⟨p.p0 + (c1.i1 - p.p0), p.p1 + (c1.i1 - p.p0), p.p2 + (c1.i1 - p.p0)⟩
      ⟨c1.end1, c1.end2, p.p2 + (c1.end1 - p.p0)⟩ := by
    have hpart := h2.part (k := c1.i1 - p.p0) (n := c1.chg1) (by unfold XdChange.end1 at *; omega)
    unfold XdChange.end1 XdChange.end2 at *
    constructor <;> dsimp only
    case first =>
      intro _
      convert hpart using 2 <;> omega
    all_goals omega
  obtain ⟨-, hbuilt'⟩ := hbuilt.append (hbetween.trans hs) ht (fun hacc => by
    have := (happart hacc).1 c1 rfl
    have := hbetween.le1
    have := hbetween.le2
    dsimp only
    omega)
  have h2' := h2.advance (n := c1.end1 - p.p0) (by omega)
  have hp : p.p0 + (c1.end1 - p.p0) = c1.end1 := by omega
  rw [hp] at h2'
  refine ⟨⟨_, _, hbuilt', Between.refl hend1 hend2 ?_, hvalid, h2', fun _ => ⟨hapart1, hnext⟩⟩, fun x hx => ?_⟩
  · obtain ⟨-, hroom2, -⟩ := h2.gap
    dsimp only
    omega
  · refine hx.append fun m hm => ?_
    have := hbuilt.last m hm
    have := hbetween.le0
    omega

lemma HalfOpen.first (h : HalfOpen r base side1 side2 (c1 :: n1) s2 acc) (hnext : ∀ c ∈ s2.head?, c1.end1 < c.i1) :
    let acc' := appendMerge acc 1 c1.i1 c1.chg1 c1.i2 c1.chg2 (c1.i1 + nextOffset base side2 s2) c1.chg1
    Synced r base side1 side2 n1 s2 acc' ∧ ∀ x, Covered x acc → Covered x acc' := by
  obtain ⟨c, n, s, q0, q2, hscript, hopen, ⟨hend1, hend2, hapart1, hvalid⟩, h2, -, hs0, hq, hq', hs2⟩ := h
  obtain ⟨rfl, rfl⟩ := List.cons.inj hscript
  have hroom := lt_nextChange hend1 hnext
  obtain ⟨-, hroom2, hoffset⟩ := h2.gap
  have hopen' : InConflict r base side1 side2
      (appendMerge acc 1 c1.i1 c1.chg1 c1.i2 c1.chg2 (c1.i1 + nextOffset base side2 s2) c1.chg1) s
      ⟨c1.end1, c1.end2, q2 + (c1.end1 - q0)⟩ := by
    refine hopen.append (.inl ?_) (by simp [XdChange.end1]) (by simp [XdChange.end2]) ?_ le_rfl le_rfl ?_
    · dsimp only [XdChange.end2]
      omega
    · dsimp only [XdChange.end1] at *
      omega
    · dsimp only
      omega
  have h2' := h2.advance (n := c1.end1 - q0) (by omega)
  have hp : q0 + (c1.end1 - q0) = c1.end1 := by omega
  rw [hp] at h2'
  refine ⟨⟨_, _, hopen'.built, Between.refl hend1 hend2 ?_, hvalid, h2', fun _ => ⟨hapart1, hnext⟩⟩, fun x hx => ?_⟩
  · dsimp only
    omega
  · refine hx.append fun m hm => ?_
    have := hopen.built.last m hm
    unfold XdChange.end1 at *
    dsimp only at this
    omega

lemma MergeState.first (h : MergeState r base side1 side2 (c1 :: n1) s2 acc) (hnext : ∀ c ∈ s2.head?, c1.end1 < c.i1) :
    let acc' := appendMerge acc 1 c1.i1 c1.chg1 c1.i2 c1.chg2 (c1.i1 + nextOffset base side2 s2) c1.chg1
    MergeState r base side1 side2 n1 s2 acc' ∧ ∀ x, Covered x acc → Covered x acc' := by
  obtain h | h | h := h
  · obtain ⟨hstate, hx⟩ := h.first hnext
    exact ⟨.inl hstate, hx⟩
  · obtain ⟨hstate, hx⟩ := h.first hnext
    exact ⟨.inl hstate, hx⟩
  · -- the open change of the second side starts before this one
    exfalso
    obtain ⟨c, n, s, q0, q1, rfl, -, -, -, hhead, -, hq, -⟩ := h
    have hbefore : c1.end1 < c.i1 := hnext c rfl
    have hafter : q0 < c1.i1 := hhead c1 rfl
    unfold XdChange.end1 at hbefore
    omega

lemma MergeState.second (hsymm : ∀ x y, r x y → r y x) (h : MergeState r base side1 side2 s1 (c2 :: n2) acc)
    (hnext : ∀ c ∈ s1.head?, c2.end1 < c.i1) :
    let acc' := appendMerge acc 2 c2.i1 c2.chg1 (c2.i1 + nextOffset base side1 s1) c2.chg1 c2.i2 c2.chg2
    MergeState r base side1 side2 s1 n2 acc' ∧ ∀ x, Covered x acc → Covered x acc' := by
  have hswap : appendMerge (acc.map XdMerge.swap) 1 c2.i1 c2.chg1 c2.i2 c2.chg2 (c2.i1 + nextOffset base side1 s1) c2.chg1 =
      (appendMerge acc 2 c2.i1 c2.chg1 (c2.i1 + nextOffset base side1 s1) c2.chg1 c2.i2 c2.chg2).map XdMerge.swap :=
    appendMerge_swap acc 2 _ _ _ _ _ _
  obtain ⟨hstate, hx⟩ := (h.swap hsymm).first hnext
  rw [hswap] at hstate hx
  have hstate := hstate.swap hsymm
  rw [map_swap_map_swap] at hstate
  refine ⟨hstate, fun x h => ?_⟩
  have := (hx x h.swap).swap
  rwa [map_swap_map_swap] at this

lemma Synced.touch (h : Synced r base side1 side2 (c1 :: n1) (c2 :: n2) acc) (h12 : c1.i1 ≤ c2.end1) (h21 : c2.i1 ≤ c1.end1) :
    Touched r base side1 side2 c1 n1 c2 n2 (appendConflict c1 c2 acc) ∧
      ∀ x, Covered x acc → Covered x (appendConflict c1 c2 acc) := by
  obtain ⟨e, p, hbuilt, hbetween, h1, h2, happart⟩ := h
  obtain ⟨⟨hp0, hp1, -⟩, htail1⟩ := id h1
  obtain ⟨⟨hp0', hp2, -⟩, htail2⟩ := id h2
  obtain ⟨-, -, hoffset1⟩ := h1.gap
  obtain ⟨-, -, hoffset2⟩ := h2.gap
  have hle1 : c1.i1 ≤ c1.end1 := Nat.le_add_right _ _
  have hle1' : c1.i2 ≤ c1.end2 := Nat.le_add_right _ _
  have hle2 : c2.i1 ≤ c2.end1 := Nat.le_add_right _ _
  have hle2' : c2.i2 ≤ c2.end2 := Nat.le_add_right _ _
  simp only [nextOffset] at hoffset1 hoffset2
  have hs := Between.advance h1 h2 (n := min c1.i1 c2.i1 - p.p0) (by simp only [nextChange]; omega)
    (by simp only [nextChange]; omega)
  rw [appendConflict_eq]
  dsimp only
  generalize hs0 : min c1.i1 c2.i1 = s0 at hs ⊢
  generalize ht0 : max c1.end1 c2.end1 = t0
  have ht : HunkAt r base side1 side2
      ⟨0, s0, t0 - s0, c1.i2 - (c1.i1 - s0), c1.end2 + (t0 - c1.end1) - (c1.i2 - (c1.i1 - s0)),
        c2.i2 - (c2.i1 - s0), c2.end2 + (t0 - c2.end1) - (c2.i2 - (c2.i1 - s0))⟩
      ⟨p.p0 + (s0 - p.p0), p.p1 + (s0 - p.p0), p.p2 + (s0 - p.p0)⟩
      ⟨t0, c1.end2 + (c2.end1 - c1.end1), c2.end2 + (c1.end1 - c2.end1)⟩ := by
    constructor <;> dsimp only <;> omega
  obtain ⟨heq, -⟩ := hbuilt.append (hbetween.trans hs) ht (fun hacc => by
    have := (happart hacc).1 c1 rfl
    have := (happart hacc).2 c2 rfl
    have := hbetween.le1
    have := hbetween.le2
    dsimp only
    omega)
  refine ⟨⟨_, ⟨_, acc, e, heq, hbuilt, hbetween.trans hs, ht0.symm ▸ ht, rfl⟩, htail1, htail2, h12, h21, ?_, ?_, ?_⟩, fun x hx => ?_⟩
  · dsimp only
    omega
  · dsimp only
    omega
  · dsimp only
    omega
  · refine hx.append fun m hm => ?_
    have := hbuilt.last m hm
    have := hbetween.le0
    omega

lemma HalfOpen.touch (h : HalfOpen r base side1 side2 (c1 :: n1) (c2 :: n2) acc) (h21 : c2.i1 ≤ c1.end1) :
    Touched r base side1 side2 c1 n1 c2 n2 (appendConflict c1 c2 acc) ∧
      ∀ x, Covered x acc → Covered x (appendConflict c1 c2 acc) := by
  obtain ⟨c, n, s, q0, q2, hscript, hopen, htail1, h2, hhead, hs0, hq, hq', hs2⟩ := h
  obtain ⟨rfl, rfl⟩ := List.cons.inj hscript
  have hafter : q0 < c2.i1 := hhead c2 rfl
  obtain ⟨⟨-, hq2, -⟩, htail2⟩ := id h2
  obtain ⟨-, -, hoffset⟩ := h2.gap
  simp only [nextOffset] at hoffset
  have hle1 : c1.i2 ≤ c1.end2 := Nat.le_add_right _ _
  have hle2 : c2.i1 ≤ c2.end1 := Nat.le_add_right _ _
  have hle2' : c2.i2 ≤ c2.end2 := Nat.le_add_right _ _
  rw [appendConflict_eq]
  dsimp only
  refine ⟨⟨s, hopen.append (.inl ?_) ?_ ?_ ?_ ?_ ?_ ?_, htail1, htail2, by omega, h21, by omega, hopen.le1, by omega⟩,
    fun x hx => hx.append fun m hm => ?_⟩
  case refine_8 =>
    have := hopen.built.last m hm
    dsimp only at this
    omega
  all_goals dsimp only; omega

lemma MergeState.touch (hsymm : ∀ x y, r x y → r y x) (h : MergeState r base side1 side2 (c1 :: n1) (c2 :: n2) acc)
    (h12 : c1.i1 ≤ c2.end1) (h21 : c2.i1 ≤ c1.end1) :
    Touched r base side1 side2 c1 n1 c2 n2 (appendConflict c1 c2 acc) ∧
      ∀ x, Covered x acc → Covered x (appendConflict c1 c2 acc) := by
  obtain h | h | h := h
  · exact h.touch h12 h21
  · exact h.touch h21
  · obtain ⟨htouched, hx⟩ := h.touch h12
    rw [appendConflict_swap] at htouched hx
    have htouched := htouched.swap hsymm
    rw [map_swap_map_swap] at htouched
    refine ⟨htouched, fun x h => ?_⟩
    have := (hx x h.swap).swap
    rwa [map_swap_map_swap] at this

lemma Touched.halfOpen (h : Touched r base side1 side2 c1 n1 c2 n2 acc) (hlt : c2.end1 < c1.end1) :
    HalfOpen r base side1 side2 (c1 :: n1) n2 acc := by
  obtain ⟨s, hopen, htail1, ⟨-, -, hapart2, hvalid2⟩, h12, -, hs, -, hs2⟩ := h
  rw [max_eq_left hlt.le, Nat.sub_eq_zero_of_le hlt.le, Nat.add_zero] at hopen
  exact ⟨c1, n1, s, c2.end1, c2.end2, rfl, hopen, htail1, hvalid2, hapart2, hs.1, h12, hlt, hs2⟩

lemma Touched.state (hsymm : ∀ x y, r x y → r y x) (h : Touched r base side1 side2 c1 n1 c2 n2 acc) :
    (c2.end1 < c1.end1 → MergeState r base side1 side2 (c1 :: n1) n2 acc) ∧
      (c1.end1 < c2.end1 → MergeState r base side1 side2 n1 (c2 :: n2) acc) ∧
      (c1.end1 = c2.end1 → MergeState r base side1 side2 n1 n2 acc) := by
  refine ⟨fun hlt => .inr (.inl (h.halfOpen hlt)), fun hlt => .inr (.inr ((h.swap hsymm).halfOpen hlt)), fun heq => ?_⟩
  obtain ⟨s, hopen, ⟨hend1, hend2, hapart1, hvalid1⟩, ⟨-, hend2', hapart2, hvalid2⟩, -⟩ := h
  rw [← heq, max_self, Nat.sub_self, Nat.add_zero, Nat.add_zero] at hopen
  rw [← heq] at hapart2 hvalid2
  exact .inl ⟨_, _, hopen.built, Between.refl hend1 hend2 hend2', hvalid1, hvalid2, fun _ => ⟨hapart1, hapart2⟩⟩

lemma Touched.covered (h : Touched r base side1 side2 c1 n1 c2 n2 acc) (hx : InChange c1 x) : Covered x acc := by
  obtain ⟨s, ⟨m, rest, e, rfl, -, -, hm, hmode⟩, -, -, -, -, hs, -⟩ := h
  have hend := hm.end0
  have hi0 := hm.i0
  obtain ⟨hx1, hx2⟩ := hx
  dsimp only at hend
  exact ⟨m, List.mem_cons_self, hmode, by omega, by omega⟩

lemma MergeState.same (h : MergeState r base side1 side2 (c1 :: n1) (c2 :: n2) acc) (hi1 : c1.i1 = c2.i1)
    (hchg1 : c1.chg1 = c2.chg1) (hlines : List.Forall₂ r (segment side1 c1.i2 c1.end2) (segment side2 c2.i2 c2.end2)) :
    MergeState r base side1 side2 n1 n2 acc := by
  have hend : c1.end1 = c2.end1 := by
    unfold XdChange.end1
    rw [hi1, hchg1]
  obtain h | h | h := h
  · obtain ⟨e, p, hbuilt, hbetween, h1, h2, -⟩ := h
    obtain ⟨⟨hp0, hp1, -⟩, hend1, hend2, hapart1, hvalid1⟩ := id h1
    obtain ⟨⟨-, hp2, -⟩, -, hend2', hapart2, hvalid2⟩ := id h2
    obtain ⟨-, -, hoffset1⟩ := h1.gap
    obtain ⟨-, -, hoffset2⟩ := h2.gap
    simp only [nextOffset] at hoffset1 hoffset2
    have hs := Between.advance h1 h2 (n := c1.i1 - p.p0) (by simp only [nextChange]; omega)
      (by simp only [nextChange]; omega)
    rw [← hend] at hapart2 hvalid2
    have hchange : Between r base side1 side2 ⟨c1.i1, c1.i2, c2.i2⟩ ⟨c1.end1, c1.end2, c2.end2⟩ :=
      ⟨Nat.le_add_right _ _, Nat.le_add_right _ _, Nat.le_add_right _ _, hend1, hend2, hend2', .of_same _ hlines⟩
    have hs' : (⟨p.p0 + (c1.i1 - p.p0), p.p1 + (c1.i1 - p.p0), p.p2 + (c1.i1 - p.p0)⟩ : Pos) =
        ⟨c1.i1, c1.i2, c2.i2⟩ := by
      congr 1 <;> omega
    rw [hs'] at hs
    exact .inl ⟨e, _, hbuilt, (hbetween.trans hs).trans hchange, hvalid1, hvalid2, fun _ => ⟨hapart1, hapart2⟩⟩
  -- an open change starts before the next change of the other side
  · obtain ⟨c, n, s, q0, q2, hscript, -, -, -, hhead, -, hq, -⟩ := h
    obtain ⟨rfl, rfl⟩ := List.cons.inj hscript
    have : q0 < c2.i1 := hhead c2 rfl
    omega
  · obtain ⟨c, n, s, q0, q1, hscript, -, -, -, hhead, -, hq, -⟩ := h
    obtain ⟨rfl, rfl⟩ := List.cons.inj hscript
    have : q0 < c1.i1 := hhead c1 rfl
    omega

end Steps

section Run

variable (r side1 side2) in
/-- Both sides change the line of the base, and not in the same change unless every overlap is a conflict. -/
def ChangedApart (level : Nat) (s1 s2 : List XdChange) (x : Nat) : Prop :=
  ∃ c1 ∈ s1, ∃ c2 ∈ s2, InChange c1 x ∧ InChange c2 x ∧
    (level = XDL_MERGE_MINIMAL ∨ ¬SameChange r side1 side2 c1 c2)

variable {level x : Nat} {c1 c2 : XdChange} {n1 n2 s1 s2 : List XdChange}

lemma ChangedApart.first (h : ChangedApart r side1 side2 level (c1 :: n1) s2 x) :
    ChangedApart r side1 side2 level n1 s2 x ∨
      ∃ c ∈ s2, InChange c1 x ∧ InChange c x ∧ (level = XDL_MERGE_MINIMAL ∨ ¬SameChange r side1 side2 c1 c) := by
  obtain ⟨c, hc, c', hc', hx⟩ := h
  obtain rfl | hc := List.mem_cons.mp hc
  · exact .inr ⟨c', hc', hx⟩
  · exact .inl ⟨c, hc, c', hc', hx⟩

lemma ChangedApart.second (h : ChangedApart r side1 side2 level s1 (c2 :: n2) x) :
    ChangedApart r side1 side2 level s1 n2 x ∨
      ∃ c ∈ s1, InChange c x ∧ InChange c2 x ∧ (level = XDL_MERGE_MINIMAL ∨ ¬SameChange r side1 side2 c c2) := by
  obtain ⟨c, hc, c', hc', hx⟩ := h
  obtain rfl | hc' := List.mem_cons.mp hc'
  · exact .inr ⟨c, hc, hx⟩
  · exact .inl ⟨c, hc, c', hc', hx⟩

def Apart (script : List XdChange) : Prop := script.Pairwise fun c d => c.end1 < d.i1

lemma ValidTail.apart {side : List α} {c : XdChange} {rest : List XdChange} (h : ValidTail r base side c rest) :
    Apart (c :: rest) := by
  induction rest generalizing c with
  | nil => exact List.pairwise_singleton _ _
  | cons d rest ih => exact List.Pairwise.cons h.lt (ih h.2.2.2.tail)

lemma ValidScript.apart {side : List α} {q0 q1 : Nat} {script : List XdChange}
    (h : ValidScript r base side q0 q1 script) : Apart script := by
  cases script with
  | nil => exact List.Pairwise.nil
  | cons c rest => exact h.tail.apart

lemma not_inChange_of_lt {c d : XdChange} (h : c.end1 < d.i1) (hx : InChange c x) : ¬InChange d x := by
  intro hx'
  have := hx.2
  have := hx'.1
  omega

lemma Apart.far {c d : XdChange} {rest : List XdChange} (h : Apart (d :: rest)) (hlt : c.end1 < d.i1) (hx : InChange c x) :
    ∀ e ∈ d :: rest, ¬InChange e x := by
  intro e he
  obtain rfl | he := List.mem_cons.mp he
  · exact not_inChange_of_lt hlt hx
  · refine not_inChange_of_lt ?_ hx
    have := List.rel_of_pairwise_cons h he
    unfold XdChange.end1 at *
    omega

lemma Apart.far_tail {c d : XdChange} {rest : List XdChange} (h : Apart (d :: rest)) (hle : c.end1 ≤ d.end1)
    (hx : InChange c x) : ∀ e ∈ rest, ¬InChange e x := by
  intro e he
  refine not_inChange_of_lt ?_ hx
  have := List.rel_of_pairwise_cons h he
  omega

lemma forall₂_of_mergeCmpLines {i1 i2 n : Nat} (h : mergeCmpLines r side1 side2 i1 i2 n) (h1 : i1 + n ≤ side1.length)
    (h2 : i2 + n ≤ side2.length) : List.Forall₂ r (segment side1 i1 (i1 + n)) (segment side2 i2 (i2 + n)) := by
  induction n generalizing i1 i2 with
  | zero => simp
  | succ n ih =>
    have hfirst := h 0 (Nat.succ_pos n)
    rw [Nat.add_zero, Nat.add_zero, List.getElem?_eq_getElem (by omega), List.getElem?_eq_getElem (by omega)] at hfirst
    rw [segment_cons _ (by omega) h1, segment_cons _ (by omega) h2]
    refine .cons hfirst ?_
    rw [show i1 + (n + 1) = i1 + 1 + n by omega, show i2 + (n + 1) = i2 + 1 + n by omega]
    refine ih (fun i hi => ?_) (by omega) (by omega)
    have := h (i + 1) (by omega)
    rwa [show i1 + (i + 1) = i1 + 1 + i by omega, show i2 + (i + 1) = i2 + 1 + i by omega] at this

lemma MergeState.inside (h : MergeState r base side1 side2 (c1 :: n1) s2 acc) : c1.end2 ≤ side1.length := by
  obtain h | h | h := h
  · obtain ⟨e, p, -, -, h1, -⟩ := h
    exact h1.tail.2.1
  · obtain ⟨c, n, s, q0, q2, hscript, -, htail, -⟩ := h
    obtain ⟨rfl, rfl⟩ := List.cons.inj hscript
    exact htail.2.1
  · obtain ⟨c, n, s, q0, q1, hscript, -, -, h1, -⟩ := h
    exact h1.tail.2.1

variable [DecidableRel r]

lemma MergeState.pass (level : Nat) (hr : Equivalence r) (h : MergeState r base side1 side2 (c1 :: n1) (c2 :: n2) acc)
    (h12 : c1.i1 ≤ c2.end1) (h21 : c2.i1 ≤ c1.end1) :
    let acc' := if level = XDL_MERGE_MINIMAL ∨ ¬SameChange r side1 side2 c1 c2 then appendConflict c1 c2 acc else acc
    ((c2.end1 < c1.end1 → MergeState r base side1 side2 (c1 :: n1) n2 acc') ∧
      (c1.end1 < c2.end1 → MergeState r base side1 side2 n1 (c2 :: n2) acc') ∧
      (c1.end1 = c2.end1 → MergeState r base side1 side2 n1 n2 acc')) ∧
    ∀ x, Covered x acc ∨ InChange c1 x ∧ InChange c2 x ∧
      (level = XDL_MERGE_MINIMAL ∨ ¬SameChange r side1 side2 c1 c2) → Covered x acc' := by
  have hsymm : ∀ x y, r x y → r y x := fun _ _ => hr.symm
  dsimp only
  by_cases hdiffer : level = XDL_MERGE_MINIMAL ∨ ¬SameChange r side1 side2 c1 c2
  · rw [if_pos hdiffer]
    obtain ⟨htouched, hkept⟩ := h.touch hsymm h12 h21
    refine ⟨htouched.state hsymm, fun x hx => ?_⟩
    obtain hx | ⟨hx, -⟩ := hx
    · exact hkept x hx
    · exact htouched.covered hx
  · rw [if_neg hdiffer]
    have hsame : SameChange r side1 side2 c1 c2 := not_not.mp (not_or.mp hdiffer).2
    obtain ⟨hi1, hchg1, hchg2, hlines⟩ := hsame
    have hend : c1.end1 = c2.end1 := by
      unfold XdChange.end1
      rw [hi1, hchg1]
    have hinside2 : c2.i2 + c1.chg2 ≤ side2.length := by
      rw [hchg2]
      exact (h.swap hsymm).inside
    have hlines := forall₂_of_mergeCmpLines hlines h.inside hinside2
    rw [show c2.i2 + c1.chg2 = c2.end2 by rw [hchg2]; rfl] at hlines
    refine ⟨⟨fun _ => by omega, fun _ => by omega, fun _ => h.same hi1 hchg1 hlines⟩, fun x hx => ?_⟩
    obtain hx | ⟨-, -, hx⟩ := hx
    · exact hx
    · exact absurd hx hdiffer

variable (r base side1 side2) in
def MergedFrom (level : Nat) (s1 s2 : List XdChange) (acc hunks : List XdMerge) : Prop :=
  (∃ e, Built r base side1 side2 hunks e ∧
    Between r base side1 side2 e ⟨base.length, side1.length, side2.length⟩) ∧
  ∀ x, Covered x acc ∨ ChangedApart r side1 side2 level s1 s2 x → Covered x hunks

omit [DecidableRel r] in
lemma MergedFrom.step {acc' hunks : List XdMerge} (h : MergedFrom r base side1 side2 level n1 n2 acc' hunks)
    (hx : ∀ x, Covered x acc ∨ ChangedApart r side1 side2 level s1 s2 x →
      Covered x acc' ∨ ChangedApart r side1 side2 level n1 n2 x) : MergedFrom r base side1 side2 level s1 s2 acc hunks :=
  ⟨h.1, fun x h' => h.2 x (hx x h')⟩

theorem mergeLoop_built (hr : Equivalence r) (h : MergeState r base side1 side2 s1 s2 acc) (ha1 : Apart s1)
    (ha2 : Apart s2) :
    MergedFrom r base side1 side2 level s1 s2 acc (mergeLoop r base side1 side2 level s1 s2 acc) := by
  have hsymm : ∀ x y, r x y → r y x := fun _ _ => hr.symm
  fun_induction mergeLoop r base side1 side2 level s1 s2 acc with
  | case1 c =>
    refine ⟨?_, fun x hx => ?_⟩
    · obtain ⟨e, p, hbuilt, hbetween, h1, h2, -⟩ | ⟨c1, n1, s, q0, q2, hscript, -⟩ | ⟨c2, n2, s, q0, q1, hscript, -⟩ := h
      · obtain ⟨-, -, hoffset1⟩ := h1.gap
        obtain ⟨-, -, hoffset2⟩ := h2.gap
        have hle := h1.1
        have hend := Between.advance h1 h2 (n := base.length - p.p0) (by simp only [nextChange]; omega)
          (by simp only [nextChange]; omega)
        simp only [nextOffset] at hoffset1 hoffset2
        have heq : (⟨p.p0 + (base.length - p.p0), p.p1 + (base.length - p.p0), p.p2 + (base.length - p.p0)⟩ : Pos) =
            ⟨base.length, side1.length, side2.length⟩ := by
          congr 1 <;> omega
        rw [heq] at hend
        exact ⟨e, hbuilt, hbetween.trans hend⟩
      · cases hscript
      · cases hscript
    · obtain hx | ⟨c1, hc1, -⟩ := hx
      · exact hx
      · cases hc1
  | case2 c1 n1 c ih =>
    have harg : (c1.i1 : Int) + side2.length - base.length = c1.i1 + nextOffset base side2 [] := by
      simp only [nextOffset]
      omega
    rw [harg] at ih ⊢
    obtain ⟨hstate, hkept⟩ := h.first (by simp)
    refine (ih hstate ha1.of_cons ha2).step fun x hx => ?_
    obtain hx | ⟨c1', -, c2, hc2, -⟩ := hx
    · exact .inl (hkept x hx)
    · cases hc2
  | case3 c2 n2 c ih =>
    have harg : (c2.i1 : Int) + side1.length - base.length = c2.i1 + nextOffset base side1 [] := by
      simp only [nextOffset]
      omega
    rw [harg] at ih ⊢
    obtain ⟨hstate, hkept⟩ := h.second hsymm (by simp)
    refine (ih hstate ha1 ha2.of_cons).step fun x hx => ?_
    obtain hx | ⟨c1, hc1, -⟩ := hx
    · exact .inl (hkept x hx)
    · cases hc1
  | case4 c1 n1 c2 n2 c hlt ih =>
    have harg : (c2.i2 : Int) - c2.i1 + c1.i1 = c1.i1 + nextOffset base side2 (c2 :: n2) := by
      simp only [nextOffset]
      omega
    rw [harg] at ih ⊢
    obtain ⟨hstate, hkept⟩ := h.first (by simpa [XdChange.end1] using hlt)
    refine (ih hstate ha1.of_cons ha2).step fun x hx => ?_
    obtain hx | hx := hx
    · exact .inl (hkept x hx)
    · obtain hx | ⟨d, hd, hx, hx', -⟩ := hx.first
      · exact .inr hx
      · exact absurd hx' (ha2.far hlt hx d hd)
  | case5 c1 n1 c2 n2 c hlt hlt' ih =>
    have harg : (c1.i2 : Int) - c1.i1 + c2.i1 = c2.i1 + nextOffset base side1 (c1 :: n1) := by
      simp only [nextOffset]
      omega
    rw [harg] at ih ⊢
    obtain ⟨hstate, hkept⟩ := h.second hsymm (by simpa [XdChange.end1] using hlt')
    refine (ih hstate ha1 ha2.of_cons).step fun x hx => ?_
    obtain hx | hx := hx
    · exact .inl (hkept x hx)
    · obtain hx | ⟨d, hd, hx, hx', -⟩ := hx.second
      · exact .inr hx
      · exact absurd hx (ha1.far hlt' hx' d hd)
  | case6 c1 n1 c2 n2 c hlt hlt' c' hend ih =>
    obtain ⟨⟨hstate, -, -⟩, hkept⟩ := h.pass level hr (not_lt.mp hlt') (not_lt.mp hlt)
    refine (ih (hstate hend) ha1 ha2.of_cons).step fun x hx => ?_
    obtain hx | hx := hx
    · exact .inl (hkept x (.inl hx))
    · obtain hx | ⟨d, hd, hdiffer⟩ := hx.second
      · exact .inr hx
      · obtain rfl | hd := List.mem_cons.mp hd
        · exact .inl (hkept x (.inr hdiffer))
        · exact absurd hdiffer.1 (ha1.far_tail hend.le hdiffer.2.1 d hd)
  | case7 c1 n1 c2 n2 c hlt hlt' c' hend hend' ih =>
    obtain ⟨⟨-, hstate, -⟩, hkept⟩ := h.pass level hr (not_lt.mp hlt') (not_lt.mp hlt)
    refine (ih (hstate hend') ha1.of_cons ha2).step fun x hx => ?_
    obtain hx | hx := hx
    · exact .inl (hkept x (.inl hx))
    · obtain hx | ⟨d, hd, hdiffer⟩ := hx.first
      · exact .inr hx
      · obtain rfl | hd := List.mem_cons.mp hd
        · exact .inl (hkept x (.inr hdiffer))
        · exact absurd hdiffer.2.1 (ha2.far_tail hend'.le hdiffer.1 d hd)
  | case8 c1 n1 c2 n2 c hlt hlt' c' hend hend' ih =>
    have heq : c1.end1 = c2.end1 := le_antisymm (not_lt.mp hend) (not_lt.mp hend')
    obtain ⟨⟨-, -, hstate⟩, hkept⟩ := h.pass level hr (not_lt.mp hlt') (not_lt.mp hlt)
    refine (ih (hstate heq) ha1.of_cons ha2.of_cons).step fun x hx => ?_
    obtain hx | hx := hx
    · exact .inl (hkept x (.inl hx))
    · obtain hx | ⟨d, hd, hdiffer⟩ := hx.first
      · obtain hx | ⟨d, hd, hdiffer⟩ := hx.second
        · exact .inr hx
        · exact absurd hdiffer.1 (ha1.far_tail heq.ge hdiffer.2.1 d hd)
      · obtain rfl | hd := List.mem_cons.mp hd
        · exact .inl (hkept x (.inr hdiffer))
        · exact absurd hdiffer.2.1 (ha2.far_tail heq.le hdiffer.1 d hd)

end Run

end GitCore.Xdiff
