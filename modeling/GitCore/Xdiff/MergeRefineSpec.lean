import GitCore.Xdiff.CompactSpec
import GitCore.Xdiff.Merge
import GitCore.Xdiff.MergeResult

/-!
# Refined conflicts hold the same sides

Hunks cut both sides into segments that pair off. Conflicts may be cut in other ways: where every
conflict is replaced by the text of one side the result stays the same.
-/

namespace GitCore.Xdiff

section Sides

variable {α : Type*} (side1 side2 : List α)

/-- The hunk covers the lines between these positions, and a hunk of mode 4 has the same lines on both sides. -/
structure HunkSides (m : XdMerge) (b1 b2 e1 e2 : Nat) : Prop where
  i1 : m.i1 = b1
  i2 : m.i2 = b2
  end1 : m.i1 + m.chg1 = e1
  end2 : m.i2 + m.chg2 = e2
  le1 : b1 ≤ e1
  le2 : b2 ≤ e2
  mode : m.mode = 0 ∨ m.mode = 1 ∨ m.mode = 2 ∨ m.mode = 4
  none : m.mode = 4 → segment side1 b1 e1 = segment side2 b2 e2

/-- The hunks between two positions are in order, and outside of them both sides have the same lines. -/
def Sides : Nat → Nat → List XdMerge → Nat → Nat → Prop
  | p1, p2, [], q1, q2 => p1 ≤ q1 ∧ p2 ≤ q2 ∧ segment side1 p1 q1 = segment side2 p2 q2
  | p1, p2, m :: rest, q1, q2 => ∃ b1 b2 e1 e2, p1 ≤ b1 ∧ p2 ≤ b2 ∧ segment side1 p1 b1 = segment side2 p2 b2 ∧
      HunkSides side1 side2 m b1 b2 e1 e2 ∧ Sides e1 e2 rest q1 q2

def hunkText (favor : Nat) (m : XdMerge) : List α :=
  if m.mode = 2 ∨ m.mode = 0 ∧ favor = 2 then segment side2 m.i2.toNat (m.i2 + m.chg2).toNat
  else segment side1 m.i1.toNat (m.i1 + m.chg1).toNat

def sideText (favor : Nat) : Nat → List XdMerge → Nat → List α
  | p1, [], q1 => segment side1 p1 q1
  | p1, m :: rest, q1 => segment side1 p1 m.i1.toNat ++
      (hunkText side1 side2 favor m ++ sideText favor (m.i1 + m.chg1).toNat rest q1)

def Undecided (m : XdMerge) : Prop := m.mode = 0 ∨ m.mode = 4

variable {side1 side2}

lemma HunkSides.hunkText_eq {m : XdMerge} {b1 b2 e1 e2 : Nat} (h : HunkSides side1 side2 m b1 b2 e1 e2) (favor : Nat) :
    hunkText side1 side2 favor m =
      if m.mode = 2 ∨ m.mode = 0 ∧ favor = 2 then segment side2 b2 e2 else segment side1 b1 e1 := by
  rw [hunkText, h.end1, h.end2, h.i1, h.i2]
  rfl

lemma Sides.le {p1 p2 q1 q2 : Nat} {hunks : List XdMerge} (h : Sides side1 side2 p1 p2 hunks q1 q2) :
    p1 ≤ q1 ∧ p2 ≤ q2 := by
  induction hunks generalizing p1 p2 with
  | nil => exact ⟨h.1, h.2.1⟩
  | cons m rest ih =>
    obtain ⟨b1, b2, e1, e2, hp1, hp2, -, hm, hrest⟩ := h
    obtain ⟨hq1, hq2⟩ := ih hrest
    exact ⟨(hp1.trans hm.le1).trans hq1, (hp2.trans hm.le2).trans hq2⟩

lemma Sides.retreat {p1 p2 q1 q2 r1 r2 : Nat} {hunks : List XdMerge} (h : Sides side1 side2 q1 q2 hunks r1 r2)
    (h1 : p1 ≤ q1) (h2 : p2 ≤ q2) (hsame : segment side1 p1 q1 = segment side2 p2 q2) (favor : Nat) :
    Sides side1 side2 p1 p2 hunks r1 r2 ∧
      sideText side1 side2 favor p1 hunks r1 = segment side1 p1 q1 ++ sideText side1 side2 favor q1 hunks r1 := by
  cases hunks with
  | nil =>
    obtain ⟨hle1, hle2, hrest⟩ := h
    refine ⟨⟨h1.trans hle1, h2.trans hle2, ?_⟩, ?_⟩
    · rw [← segment_append side1 h1 hle1, ← segment_append side2 h2 hle2, hsame, hrest]
    · exact (segment_append side1 h1 hle1).symm
  | cons m rest =>
    obtain ⟨b1, b2, e1, e2, hle1, hle2, hgap, hm, hrest⟩ := h
    refine ⟨⟨b1, b2, e1, e2, h1.trans hle1, h2.trans hle2, ?_, hm, hrest⟩, ?_⟩
    · rw [← segment_append side1 h1 hle1, ← segment_append side2 h2 hle2, hsame, hgap]
    · rw [sideText, sideText, hm.i1, Int.toNat_natCast, ← List.append_assoc (segment side1 p1 q1),
        segment_append side1 h1 hle1]

lemma Sides.append {p1 p2 q1 q2 r1 r2 : Nat} {hunks rest : List XdMerge} (h : Sides side1 side2 p1 p2 hunks q1 q2)
    (hrest : Sides side1 side2 q1 q2 rest r1 r2) (favor : Nat) :
    Sides side1 side2 p1 p2 (hunks ++ rest) r1 r2 ∧
      sideText side1 side2 favor p1 (hunks ++ rest) r1 =
        sideText side1 side2 favor p1 hunks q1 ++ sideText side1 side2 favor q1 rest r1 := by
  induction hunks generalizing p1 p2 with
  | nil =>
    obtain ⟨h1, h2, hsame⟩ := h
    exact hrest.retreat h1 h2 hsame favor
  | cons m hunks ih =>
    obtain ⟨b1, b2, e1, e2, hp1, hp2, hgap, hm, htail⟩ := h
    obtain ⟨hsides, htext⟩ := ih htail
    refine ⟨⟨b1, b2, e1, e2, hp1, hp2, hgap, hm, hsides⟩, ?_⟩
    rw [List.cons_append, sideText, sideText, hm.end1, Int.toNat_natCast, htext, List.append_assoc, List.append_assoc]

lemma Sides.sideText_undecided {p1 p2 q1 q2 : Nat} {hunks : List XdMerge} (h : Sides side1 side2 p1 p2 hunks q1 q2)
    (hund : ∀ m ∈ hunks, Undecided m) (favor : Nat) :
    sideText side1 side2 favor p1 hunks q1 = if favor = 2 then segment side2 p2 q2 else segment side1 p1 q1 := by
  induction hunks generalizing p1 p2 with
  | nil =>
    rw [sideText]
    split_ifs
    · exact h.2.2
    · rfl
  | cons m rest ih =>
    obtain ⟨b1, b2, e1, e2, hp1, hp2, hgap, hm, hrest⟩ := h
    obtain ⟨hmode, hund⟩ := List.forall_mem_cons.mp hund
    obtain ⟨hq1, hq2⟩ := hrest.le
    rw [sideText, hm.hunkText_eq, hm.end1, hm.i1, Int.toNat_natCast, Int.toNat_natCast, ih hrest hund]
    by_cases hfavor : favor = 2
    · have hhunk : (if m.mode = 2 ∨ m.mode = 0 ∧ favor = 2 then segment side2 b2 e2 else segment side1 b1 e1) =
          segment side2 b2 e2 := by
        obtain hzero | hfour := hmode
        · exact if_pos (.inr ⟨hzero, hfavor⟩)
        · rw [if_neg (by omega), hm.none hfour]
      rw [hhunk, if_pos hfavor, if_pos hfavor, hgap, segment_append side2 hm.le2 hq2,
        segment_append side2 hp2 (hm.le2.trans hq2)]
    · have hmode' : ¬ (m.mode = 2 ∨ m.mode = 0 ∧ favor = 2) := by
        obtain hzero | hfour := hmode <;> omega
      rw [if_neg hmode', if_neg hfavor, if_neg hfavor, segment_append side1 hm.le1 hq1,
        segment_append side1 hp1 (hm.le1.trans hq1)]

variable (side1 side2) in
/-- The new hunks cut the same sides, and replacing conflicts by one side gives the same text. -/
def Refines (p1 p2 : Nat) (old new : List XdMerge) (q1 q2 : Nat) : Prop :=
  Sides side1 side2 p1 p2 new q1 q2 ∧
    ∀ favor, sideText side1 side2 favor p1 new q1 = sideText side1 side2 favor p1 old q1

variable {p1 p2 q1 q2 r1 r2 : Nat} {old new rest rest' : List XdMerge}

lemma Refines.refl (h : Sides side1 side2 p1 p2 old q1 q2) : Refines side1 side2 p1 p2 old old q1 q2 :=
  ⟨h, fun _ => rfl⟩

lemma Refines.trans {newer : List XdMerge} (h : Refines side1 side2 p1 p2 old new q1 q2)
    (h' : Refines side1 side2 p1 p2 new newer q1 q2) : Refines side1 side2 p1 p2 old newer q1 q2 :=
  ⟨h'.1, fun favor => (h'.2 favor).trans (h.2 favor)⟩

lemma Refines.of_undecided (hold : Sides side1 side2 p1 p2 old q1 q2) (hnew : Sides side1 side2 p1 p2 new q1 q2)
    (hund : ∀ m ∈ old, Undecided m) (hund' : ∀ m ∈ new, Undecided m) : Refines side1 side2 p1 p2 old new q1 q2 :=
  ⟨hnew, fun favor => (hnew.sideText_undecided hund' favor).trans (hold.sideText_undecided hund favor).symm⟩

lemma Refines.append (hold : Sides side1 side2 p1 p2 old q1 q2) (h : Refines side1 side2 p1 p2 old new q1 q2)
    (hrest : Sides side1 side2 q1 q2 rest r1 r2) (h' : Refines side1 side2 q1 q2 rest rest' r1 r2) :
    Refines side1 side2 p1 p2 (old ++ rest) (new ++ rest') r1 r2 :=
  ⟨(h.1.append h'.1 0).1, fun favor => by
    rw [(h.1.append h'.1 favor).2, (hold.append hrest favor).2, h.2 favor, h'.2 favor]⟩

lemma HunkAt.sides {base : List α} {m : XdMerge} {b e : Pos} (h : HunkAt Eq base side1 side2 m b e) :
    HunkSides side1 side2 m b.p1 b.p2 e.p1 e.p2 where
  i1 := h.i1
  i2 := h.i2
  end1 := h.end1
  end2 := h.end2
  le1 := h.le1
  le2 := h.le2
  mode := by
    have := h.mode
    omega
  none hmode := by
    have := h.mode
    omega

lemma eq_of_forall₂_eq {xs ys : List α} (h : List.Forall₂ Eq xs ys) : xs = ys := by
  rwa [List.forall₂_eq_eq_eq] at h

lemma HunksFrom.sides {base : List α} {p : Pos} {hunks : List XdMerge} (h : HunksFrom Eq base side1 side2 p hunks) :
    Sides side1 side2 p.p1 p.p2 hunks side1.length side2.length := by
  induction hunks generalizing p with
  | nil =>
    obtain ⟨-, h1, h2, hsame⟩ := h
    refine ⟨h1, h2, ?_⟩
    rw [segment_length, segment_length]
    exact eq_of_forall₂_eq hsame
  | cons m rest ih =>
    obtain ⟨b, e, ⟨-, h1, h2⟩, hgap, hm, hrest⟩ := h
    exact ⟨b.p1, b.p2, e.p1, e.p2, h1, h2, eq_of_forall₂_eq hgap, hm.sides, ih hrest⟩

variable [DecidableEq α]

lemma HunkAt.refineZdiff3 {base : List α} {m : XdMerge} {b e : Pos} (h : HunkAt Eq base side1 side2 m b e)
    (hmode : m.mode = 0) : Sides side1 side2 b.p1 b.p2 [refineZdiff3 Eq side1 side2 m] e.p1 e.p2 ∧
      (refineZdiff3 Eq side1 side2 m).mode = 0 := by
  rw [Xdiff.refineZdiff3, if_neg (not_not.mpr hmode)]
  obtain ⟨k, hm', hmode', hsame⟩ := trimStart_spec m.chg1.toNat h hmode
  dsimp only
  generalize trimStart Eq side1 side2 m.chg1.toNat m = m' at hm' hmode' ⊢
  obtain ⟨j, hj1, hj2, hm'', hmode'', hsame'⟩ := trimEnd_spec m'.chg1.toNat hm' hmode'
  refine ⟨⟨b.p1 + k, b.p2 + k, e.p1 - j, e.p2 - j, Nat.le_add_right _ _, Nat.le_add_right _ _,
    eq_of_forall₂_eq hsame, hm''.sides, Nat.sub_le _ _, Nat.sub_le _ _, eq_of_forall₂_eq hsame'⟩, hmode''⟩

lemma HunksFrom.refineZdiff3 {base : List α} {p : Pos} {hunks : List XdMerge}
    (h : HunksFrom Eq base side1 side2 p hunks) :
    Refines side1 side2 p.p1 p.p2 hunks (hunks.map (refineZdiff3 Eq side1 side2)) side1.length side2.length := by
  induction hunks generalizing p with
  | nil => exact Refines.refl h.sides
  | cons m rest ih =>
    obtain ⟨b, e, ⟨-, h1, h2⟩, hgap, hm, hrest⟩ := h
    have hsame := eq_of_forall₂_eq hgap
    have hone : Sides side1 side2 p.p1 p.p2 [m] e.p1 e.p2 :=
      ⟨b.p1, b.p2, e.p1, e.p2, h1, h2, hsame, hm.sides, le_rfl, le_rfl, by rw [segment_self, segment_self]⟩
    refine @Refines.append _ _ _ _ _ _ _ _ _ [m] [Xdiff.refineZdiff3 Eq side1 side2 m] _ _ hone ?_ hrest.sides (ih hrest)
    by_cases hmode : m.mode = 0
    · obtain ⟨hsides, hmode'⟩ := hm.refineZdiff3 hmode
      refine Refines.of_undecided hone (hsides.retreat h1 h2 hsame 0).1 ?_ ?_
      · exact List.forall_mem_singleton.mpr (.inl hmode)
      · exact List.forall_mem_singleton.mpr (.inl hmode')
    · rw [Xdiff.refineZdiff3, if_pos hmode]
      exact Refines.refl hone

end Sides

section Fill

variable {base side1 side2 : List (List UInt8)}

lemma Sides.fillMergeBuffer {xmp : XmParam} (hfavor : xmp.favor = 1 ∨ xmp.favor = 2) {i p1 p2 : Nat} {hunks : List XdMerge}
    (h : Sides side1 side2 p1 p2 hunks side1.length side2.length) (hi : i ≤ p1) :
    Xdiff.fillMergeBuffer base side1 side2 xmp i hunks =
      (segment side1 i p1 ++ sideText side1 side2 xmp.favor p1 hunks side1.length).flatten := by
  induction hunks generalizing i p1 p2 with
  | nil =>
    rw [sideText, segment_append side1 hi h.1]
    exact recsCopy_segment side1 (hi.trans h.1) false
  | cons m rest ih =>
    obtain ⟨b1, b2, e1, e2, hp1, hp2, hgap, hm, hrest⟩ := h
    have hib : i ≤ b1 := hi.trans hp1
    have hcopy1 : m.chg1 = (e1 : Int) - b1 := by
      have := hm.end1
      have := hm.i1
      omega
    have hcopy2 : m.chg2 = (e2 : Int) - b2 := by
      have := hm.end2
      have := hm.i2
      omega
    have hlag : Xdiff.fillMergeBuffer base side1 side2 xmp i rest =
        (segment side1 i e1 ++ sideText side1 side2 xmp.favor e1 rest side1.length).flatten :=
      ih hrest (hib.trans hm.le1)
    have hnext : Xdiff.fillMergeBuffer base side1 side2 xmp e1 rest =
        (sideText side1 side2 xmp.favor e1 rest side1.length).flatten := by
      rw [ih hrest le_rfl, segment_self, List.nil_append]
    have hmode : (favorMode xmp.favor m).mode = if m.mode = 0 then xmp.favor else m.mode := by
      by_cases hzero : m.mode = 0
      · rw [favorMode, if_pos ⟨by omega, hzero⟩, if_pos hzero]
      · rw [favorMode, if_neg fun h => hzero h.2, if_neg hzero]
    have hfields : (favorMode xmp.favor m).i1 = m.i1 ∧ (favorMode xmp.favor m).chg1 = m.chg1 ∧
        (favorMode xmp.favor m).i2 = m.i2 ∧ (favorMode xmp.favor m).chg2 = m.chg2 := by
      rw [favorMode]
      split_ifs <;> exact ⟨rfl, rfl, rfl, rfl⟩
    obtain ⟨hi1, hchg1, hi2, hchg2⟩ := hfields
    rw [Xdiff.fillMergeBuffer, sideText, hm.hunkText_eq, hm.end1, hm.i1, Int.toNat_natCast, Int.toNat_natCast,
      ← List.append_assoc (segment side1 i p1), segment_append side1 hi hp1]
    rw [hmode, hi1, hchg1, hi2, hchg2, hm.end1, hm.i1, hm.i2, hcopy1, hcopy2, hnext, hlag,
      recsCopy_segment side1 hib]
    have hvalue : (if m.mode = 0 then xmp.favor else m.mode) = 1 ∧ ¬ (m.mode = 2 ∨ m.mode = 0 ∧ xmp.favor = 2) ∨
        (if m.mode = 0 then xmp.favor else m.mode) = 2 ∧ (m.mode = 2 ∨ m.mode = 0 ∧ xmp.favor = 2) ∨
        (if m.mode = 0 then xmp.favor else m.mode) = 4 ∧ ¬ (m.mode = 2 ∨ m.mode = 0 ∧ xmp.favor = 2) := by
      have := hm.mode
      split_ifs <;> omega
    obtain ⟨hone, hpick⟩ | ⟨htwo, hpick⟩ | ⟨hfour, hpick⟩ := hvalue
    · rw [hone, if_neg hpick]
      simp [recsCopy_segment side1 hm.le1]
    · rw [htwo, if_pos hpick]
      simp [recsCopy_segment side2 hm.le2]
    · rw [hfour, if_neg hpick, ← List.append_assoc (segment side1 i b1), segment_append side1 hib hm.le1]
      simp

end Fill

section Classes

lemma map_ptr_classifyRecords (classes lines : List (List UInt8)) :
    (classifyRecords classes lines).1.map (·.ptr) = lines := by
  induction lines generalizing classes with
  | nil => rfl
  | cons line lines ih => exact congrArg (line :: ·) (ih _)

lemma prefix_classifyRecords (classes lines : List (List UInt8)) : classes <+: (classifyRecords classes lines).2 := by
  induction lines generalizing classes with
  | nil => exact List.prefix_rfl
  | cons line lines ih =>
    refine List.IsPrefix.trans ?_ (ih _)
    split_ifs
    · exact List.prefix_rfl
    · exact List.prefix_append _ _

lemma getElem?_of_prefix {α : Type*} {l l' : List α} (h : l <+: l') {i : Nat} {x : α} (hi : l[i]? = some x) :
    l'[i]? = some x := by
  obtain ⟨rest, rfl⟩ := h
  obtain ⟨hlt, -⟩ := List.getElem?_eq_some_iff.mp hi
  rw [List.getElem?_append_left hlt, hi]

lemma getElem?_classifyRecords (classes lines : List (List UInt8)) :
    ∀ record ∈ (classifyRecords classes lines).1,
      (classifyRecords classes lines).2[record.minimalPerfectHash]? = some record.ptr := by
  induction lines generalizing classes with
  | nil => simp [classifyRecords]
  | cons line lines ih =>
    refine List.forall_mem_cons.mpr ⟨?_, ih _⟩
    have hmem : line ∈ (if line ∈ classes then classes else classes ++ [line]) := by
      split_ifs with h
      · exact h
      · simp
    have hlt := List.idxOf_lt_length_of_mem hmem
    have hget := List.getElem?_eq_getElem hlt
    rw [List.getElem_idxOf] at hget
    exact getElem?_of_prefix (prefix_classifyRecords _ lines) hget

lemma ptr_eq_of_classifyRecords (lines1 lines2 : List (List UInt8)) {x y : XRecord}
    (hx : x ∈ (classifyRecords [] lines1).1) (hy : y ∈ (classifyRecords (classifyRecords [] lines1).2 lines2).1)
    (h : x.minimalPerfectHash = y.minimalPerfectHash) : x.ptr = y.ptr := by
  have hfirst := getElem?_of_prefix (prefix_classifyRecords (classifyRecords [] lines1).2 lines2)
    (getElem?_classifyRecords [] lines1 x hx)
  have hsecond := getElem?_classifyRecords _ lines2 y hy
  rw [h, hsecond] at hfirst
  exact (Option.some_inj.mp hfirst).symm

lemma changed_markedFile {recs : List XRecord} {h : recs.length ≤ longMax} {flags : List Bool}
    (hlen : flags.length = recs.length) : (markedFile recs h flags).changed = flags := by
  change recs.mapIdx (fun i _ => flags.getD i false) = flags
  refine List.ext_getElem ?_ fun i hi hi' => ?_
  · rw [List.length_mapIdx, hlen]
  · rw [List.getElem_mapIdx, List.getD_eq_getElem?_getD, List.getElem?_eq_getElem hi', Option.getD_some]

variable {doDiff : UInt64 → List XRecord → List XRecord → Option (List Bool × List Bool)}

lemma doDiffEnv_spec (hdiff : ValidDiff doDiff) (flags : UInt64) (mf1 mf2 : MmFile) :
    doDiffEnv doDiff flags mf1 mf2 = none ∧ DiffFails doDiff ∨
    ∃ xe, doDiffEnv doDiff flags mf1 mf2 = some xe ∧ SameLines xe.xdf1.unchanged xe.xdf2.unchanged ∧
      xe.xdf1.recs = (classifyRecords [] mf1.lines).1 ∧
      xe.xdf2.recs = (classifyRecords (classifyRecords [] mf1.lines).2 mf2.lines).1 := by
  rw [doDiffEnv]
  cases hrun : doDiff flags (classifyRecords [] mf1.lines).1
      (classifyRecords (classifyRecords [] mf1.lines).2 mf2.lines).1 with
  | none => exact .inl ⟨rfl, _, _, _, hrun⟩
  | some changed =>
    obtain ⟨hlen1, hlen2, hsame⟩ := hdiff _ _ _ _ _ hrun
    refine .inr ⟨_, rfl, ?_, rfl, rfl⟩
    rw [XdFile.unchanged, XdFile.unchanged, changed_markedFile hlen1, changed_markedFile hlen2]
    exact hsame

lemma compactFile_spec (hdiff : ValidDiff doDiff) (flags : UInt64) {xdf xdfo : XdFile}
    (h : SameLines xdf.unchanged xdfo.unchanged) :
    ∃ r, compactFile doDiff flags xdf xdfo = some (.ok r) ∧ CompactedFrom doDiff ⟨xdf, xdfo⟩ r := by
  obtain ⟨r, hrun, hr⟩ := changeCompact_run hdiff flags h
  exact ⟨r, hrun _ le_rfl, hr⟩

lemma diffScript_spec (hdiff : ValidDiff doDiff) (flags : UInt64) (mf1 mf2 : MmFile) :
    diffScript doDiff flags mf1 mf2 = none ∧ DiffFails doDiff ∨
    ∃ script, diffScript doDiff flags mf1 mf2 = some script ∧ ValidScript Eq mf1.lines mf2.lines 0 0 script := by
  rw [diffScript]
  obtain ⟨hnone, hfails⟩ | ⟨xe, hxe, hsame, hrecs1, hrecs2⟩ := doDiffEnv_spec hdiff flags mf1 mf2
  · rw [hnone]
    exact .inl ⟨rfl, hfails⟩
  obtain ⟨first, hfirst, hkept, hsame', hret⟩ := compactFile_spec hdiff flags hsame
  obtain ⟨second, hsecond, hkept', hsame'', hret'⟩ := compactFile_spec hdiff flags hsame'.symm
  rw [hxe]
  dsimp only
  rw [hfirst]
  dsimp only
  obtain hret | ⟨hret, hfails⟩ := hret
  · rw [hret, if_neg (by decide), hsecond]
    dsimp only
    obtain hret' | ⟨hret', hfails⟩ := hret'
    · rw [hret', if_neg (by decide)]
      have h1 : second.xdfo.recs = (classifyRecords [] mf1.lines).1 := (hkept'.recs2.trans hkept.recs1).trans hrecs1
      have h2 : second.xdf.recs = (classifyRecords (classifyRecords [] mf1.lines).2 mf2.lines).1 :=
        (hkept'.recs1.trans hkept.recs2).trans hrecs2
      refine .inr ⟨_, rfl, ?_⟩
      have hscript := @buildScript_validScript _ Eq ⟨second.xdfo, second.xdf⟩ (·.ptr)
        (fun x hx y hy => ptr_eq_of_classifyRecords mf1.lines mf2.lines (h1 ▸ hx) (h2 ▸ hy)) hsame''.symm
      dsimp only at hscript
      rwa [h1, h2, map_ptr_classifyRecords, map_ptr_classifyRecords] at hscript
    · rw [hret', if_pos (by decide)]
      exact .inl ⟨rfl, hfails⟩
  · rw [hret, if_pos (by decide)]
    exact .inl ⟨rfl, hfails⟩

end Classes

section Refine

variable {α : Type*} {side1 side2 : List α} {b1 b2 e1 e2 p1 p2 q0 q1 : Nat}

def ConflictOf (b1 b2 : Nat) (xscr : XdChange) (m : XdMerge) : Prop :=
  m.mode = 0 ∧ m.i1 = xscr.i1 + b1 ∧ m.chg1 = xscr.chg1 ∧ m.i2 = xscr.i2 + b2 ∧ m.chg2 = xscr.chg2

lemma ValidScript.sides {script : List XdChange} {hunks : List XdMerge} (he1 : e1 ≤ side1.length)
    (he2 : e2 ≤ side2.length) (hb1 : b1 ≤ e1) (hb2 : b2 ≤ e2)
    (h : ValidScript Eq (segment side1 b1 e1) (segment side2 b2 e2) q0 q1 script)
    (hhunks : List.Forall₂ (ConflictOf b1 b2) script hunks) :
    Sides side1 side2 (b1 + q0) (b2 + q1) hunks e1 e2 := by
  have hlen1 := length_segment (a := b1) he1
  have hlen2 := length_segment (a := b2) he2
  induction hhunks generalizing q0 q1 with
  | nil =>
    obtain ⟨h1, h2, hsame⟩ := h
    refine ⟨by omega, by omega, ?_⟩
    rw [← drop_segment, ← drop_segment]
    exact eq_of_forall₂_eq hsame
  | @cons xscr m script hunks hm _ ih =>
    obtain ⟨⟨h1, h2, hgap⟩, hend1, hend2, -, hrest⟩ := h
    obtain ⟨hmode, hi1, hchg1, hi2, hchg2⟩ := hm
    have hsame := eq_of_forall₂_eq hgap
    rw [XdChange.end1] at hend1 hrest
    rw [XdChange.end2] at hend2 hrest
    rw [segment_segment side1 (by omega), segment_segment side2 (by omega)] at hsame
    refine ⟨b1 + xscr.i1, b2 + xscr.i2, b1 + (xscr.i1 + xscr.chg1), b2 + (xscr.i2 + xscr.chg2), by omega, by omega, hsame,
      ?_, ih hrest⟩
    constructor <;> omega

lemma lines_subfile {xdf : XdFile} {i chg : Int} (hi : i = b1) (hchg : i + chg = e1) :
    (xdf.subfile i chg).lines = segment xdf.lines b1 e1 := by
  have hcount : chg.toNat = e1 - b1 := by omega
  dsimp only [XdFile.subfile]
  rw [hi, Int.toNat_natCast, hcount, segment]

lemma Refines.retreat {old new : List XdMerge} (hold : Sides side1 side2 b1 b2 old e1 e2)
    (h : Refines side1 side2 b1 b2 old new e1 e2) (h1 : p1 ≤ b1) (h2 : p2 ≤ b2)
    (hsame : segment side1 p1 b1 = segment side2 p2 b2) : Refines side1 side2 p1 p2 old new e1 e2 :=
  ⟨(h.1.retreat h1 h2 hsame 0).1, fun favor => by
    rw [(h.1.retreat h1 h2 hsame favor).2, (hold.retreat h1 h2 hsame favor).2, h.2 favor]⟩

variable {doDiff : UInt64 → List XRecord → List XRecord → Option (List Bool × List Bool)} {xdf1 xdf2 : XdFile}

lemma HunkSides.single {m : XdMerge} (h : HunkSides side1 side2 m b1 b2 e1 e2) :
    Sides side1 side2 b1 b2 [m] e1 e2 :=
  ⟨b1, b2, e1, e2, le_rfl, le_rfl, by rw [segment_self, segment_self], h, le_rfl, le_rfl,
    by rw [segment_self, segment_self]⟩

lemma refineConflict_spec (hdiff : ValidDiff doDiff) (flags : UInt64) {m : XdMerge}
    (h : HunkSides xdf1.lines xdf2.lines m b1 b2 e1 e2) (he1 : e1 ≤ xdf1.lines.length) (he2 : e2 ≤ xdf2.lines.length) :
    refineConflict doDiff flags xdf1 xdf2 m = none ∧ DiffFails doDiff ∨
      ∃ hunks, refineConflict doDiff flags xdf1 xdf2 m = some hunks ∧
        Refines xdf1.lines xdf2.lines b1 b2 [m] hunks e1 e2 := by
  rw [refineConflict]
  split_ifs with hmode hempty
  · exact .inr ⟨_, rfl, Refines.refl h.single⟩
  · exact .inr ⟨_, rfl, Refines.refl h.single⟩
  · have hzero : m.mode = 0 := not_not.mp hmode
    obtain ⟨hnone, hfails⟩ | ⟨script, hscript, hvalid⟩ :=
      diffScript_spec hdiff flags (xdf1.subfile m.i1 m.chg1) (xdf2.subfile m.i2 m.chg2)
    · rw [hnone]
      exact .inl ⟨rfl, hfails⟩
    rw [lines_subfile h.i1 h.end1, lines_subfile h.i2 h.end2] at hvalid
    rw [hscript]
    refine .inr ⟨_, rfl, ?_⟩
    have hund : ∀ m' ∈ [m], Undecided m' := List.forall_mem_singleton.mpr (.inl hzero)
    cases script with
    | nil =>
      obtain ⟨-, -, hsame⟩ := hvalid
      refine Refines.of_undecided h.single ?_ hund (List.forall_mem_singleton.mpr (.inr rfl))
      exact HunkSides.single ⟨h.i1, h.i2, h.end1, h.end2, h.le1, h.le2, .inr (.inr (.inr rfl)),
        fun _ => eq_of_forall₂_eq hsame⟩
    | cons xscr rest =>
      have hi1 := h.i1
      have hi2 := h.i2
      have hhunks : List.Forall₂ (ConflictOf b1 b2) (xscr :: rest) (splitConflict m (xscr :: rest)) := by
        refine .cons ⟨hzero, by dsimp only; rw [hi1], rfl, by dsimp only; rw [hi2], rfl⟩ ?_
        rw [List.forall₂_map_right_iff, List.forall₂_same]
        exact fun x _ => ⟨rfl, by dsimp only; rw [hi1], rfl, by dsimp only; rw [hi2], rfl⟩
      refine Refines.of_undecided h.single (hvalid.sides he1 he2 h.le1 h.le2 hhunks) hund ?_
      refine List.forall_mem_cons.mpr ⟨.inl hzero, fun m' hm' => ?_⟩
      obtain ⟨x, -, rfl⟩ := List.mem_map.mp hm'
      exact .inl rfl

lemma refineConflicts_spec (hdiff : ValidDiff doDiff) (flags : UInt64) {hunks : List XdMerge}
    (h : Sides xdf1.lines xdf2.lines p1 p2 hunks xdf1.lines.length xdf2.lines.length) :
    refineConflicts doDiff flags xdf1 xdf2 hunks = none ∧ DiffFails doDiff ∨
      ∃ refined, refineConflicts doDiff flags xdf1 xdf2 hunks = some refined ∧
        Refines xdf1.lines xdf2.lines p1 p2 hunks refined xdf1.lines.length xdf2.lines.length := by
  induction hunks generalizing p1 p2 with
  | nil => exact .inr ⟨[], rfl, Refines.refl h⟩
  | cons m rest ih =>
    obtain ⟨b1, b2, e1, e2, hp1, hp2, hgap, hm, hrest⟩ := h
    obtain ⟨he1, he2⟩ := hrest.le
    rw [refineConflicts]
    obtain ⟨hnone, hfails⟩ | ⟨parts, hparts, hrefines⟩ := refineConflict_spec hdiff flags hm he1 he2
    · rw [hnone]
      exact .inl ⟨rfl, hfails⟩
    obtain ⟨hnone, hfails⟩ | ⟨refined, hrefined, hrefines'⟩ := ih hrest
    · rw [hparts, hnone]
      exact .inl ⟨rfl, hfails⟩
    rw [hparts, hrefined]
    have hone := (hm.single.retreat hp1 hp2 hgap 0).1
    have hfirst := hrefines.retreat hm.single hp1 hp2 hgap
    exact .inr ⟨_, rfl, Refines.append hone hfirst hrest hrefines'⟩

lemma HunkSides.mergeTwoConflicts {m next : XdMerge} {b1' b2' e1' e2' : Nat}
    (h : HunkSides side1 side2 m b1 b2 e1 e2) (h' : HunkSides side1 side2 next b1' b2' e1' e2') (h1 : e1 ≤ b1')
    (h2 : e2 ≤ b2') (hmode : m.mode = 0) : HunkSides side1 side2 (mergeTwoConflicts m next) b1 b2 e1' e2' where
  i1 := h.i1
  i2 := h.i2
  end1 := by
    have := h'.end1
    dsimp only [Xdiff.mergeTwoConflicts]
    omega
  end2 := by
    have := h'.end2
    dsimp only [Xdiff.mergeTwoConflicts]
    omega
  le1 := (h.le1.trans h1).trans h'.le1
  le2 := (h.le2.trans h2).trans h'.le2
  mode := .inl hmode
  none hfour := absurd (hmode.symm.trans hfour) (by decide)

lemma simplifyFrom_refines (simplifyIfNoAlnum : Bool) {m : XdMerge} {rest : List XdMerge} {r1 r2 : Nat}
    (h : Sides xdf1.lines xdf2.lines p1 p2 (m :: rest) r1 r2) :
    Refines xdf1.lines xdf2.lines p1 p2 (m :: rest) (simplifyFrom xdf1 simplifyIfNoAlnum m rest) r1 r2 := by
  induction rest generalizing m p1 p2 with
  | nil => exact Refines.refl h
  | cons next rest ih =>
    obtain ⟨b1, b2, e1, e2, hp1, hp2, hgap, hm, hrest⟩ := h
    rw [simplifyFrom]
    split_ifs with hsimplify
    · obtain ⟨b1', b2', e1', e2', hp1', hp2', hgap', hm', hrest'⟩ := hrest
      have hmodes : m.mode = 0 ∧ next.mode = 0 := by
        rw [simplifies] at hsimplify
        exact ⟨not_not.mp fun hne => hsimplify (.inl hne), not_not.mp fun hne => hsimplify (.inr (.inl hne))⟩
      have hmerged := hm.mergeTwoConflicts hm' hp1' hp2' hmodes.1
      have htwo : Sides xdf1.lines xdf2.lines p1 p2 [m, next] e1' e2' :=
        ⟨b1, b2, e1, e2, hp1, hp2, hgap, hm, (hm'.single.retreat hp1' hp2' hgap' 0).1⟩
      have hone := (hmerged.single.retreat hp1 hp2 hgap 0).1
      have hjoin : Refines xdf1.lines xdf2.lines p1 p2 ([m, next] ++ rest) ([mergeTwoConflicts m next] ++ rest) r1 r2 := by
        refine Refines.append htwo (Refines.of_undecided htwo hone ?_ ?_) hrest' (Refines.refl hrest')
        · exact List.forall_mem_cons.mpr ⟨.inl hmodes.1, List.forall_mem_singleton.mpr (.inl hmodes.2)⟩
        · exact List.forall_mem_singleton.mpr (.inl hmodes.1)
      exact hjoin.trans (ih hjoin.1)
    · have hone := (hm.single.retreat hp1 hp2 hgap 0).1
      exact Refines.append hone (Refines.refl hone) hrest (ih hrest)

lemma simplifyNonConflicts_refines (simplifyIfNoAlnum : Bool) {hunks : List XdMerge} {r1 r2 : Nat}
    (h : Sides xdf1.lines xdf2.lines p1 p2 hunks r1 r2) :
    Refines xdf1.lines xdf2.lines p1 p2 hunks (simplifyNonConflicts xdf1 simplifyIfNoAlnum hunks) r1 r2 := by
  cases hunks with
  | nil => exact Refines.refl h
  | cons m rest => exact simplifyFrom_refines simplifyIfNoAlnum h

end Refine

section Merge

variable {base : List (List UInt8)} {xdf1 xdf2 : XdFile} {xscr1 xscr2 : List XdChange} (xmp : XmParam)

lemma unrefinedHunks_hunksFrom (h1 : ValidScript Eq base xdf1.lines 0 0 xscr1) (h2 : ValidScript Eq base xdf2.lines 0 0 xscr2) :
    HunksFrom Eq base xdf1.lines xdf2.lines ⟨0, 0, 0⟩ (unrefinedHunks xdf1 xdf2 base xmp xscr1 xscr2) :=
  (mergeLoop_merges (effectiveLevel xmp) eq_equivalence h1 h2).1.hunksFrom eq_equivalence

variable {doDiff : UInt64 → List XRecord → List XRecord → Option (List Bool × List Bool)}

lemma refinedHunks_refines (hdiff : ValidDiff doDiff) (flags : UInt64) (h1 : ValidScript Eq base xdf1.lines 0 0 xscr1)
    (h2 : ValidScript Eq base xdf2.lines 0 0 xscr2) :
    refinedHunks doDiff flags xdf1 xdf2 base xmp xscr1 xscr2 = none ∧ DiffFails doDiff ∨
      ∃ hunks, refinedHunks doDiff flags xdf1 xdf2 base xmp xscr1 xscr2 = some hunks ∧
        Refines xdf1.lines xdf2.lines 0 0 (unrefinedHunks xdf1 xdf2 base xmp xscr1 xscr2) hunks xdf1.lines.length
          xdf2.lines.length := by
  have hhunks := unrefinedHunks_hunksFrom xmp h1 h2
  have hsides : Sides xdf1.lines xdf2.lines 0 0 _ _ _ := hhunks.sides
  rw [refinedHunks]
  generalize unrefinedHunks xdf1 xdf2 base xmp xscr1 xscr2 = changes at *
  split_ifs
  · exact .inr ⟨_, rfl, hhunks.refineZdiff3⟩
  · obtain ⟨hnone, hfails⟩ | ⟨refined, hrefined, hrefines⟩ := refineConflicts_spec hdiff flags hsides
    · rw [hnone]
      exact .inl ⟨rfl, hfails⟩
    · rw [hrefined]
      exact .inr ⟨_, rfl, hrefines.trans (simplifyNonConflicts_refines _ hrefines.1)⟩
  · exact .inr ⟨_, rfl, Refines.refl hsides⟩

/-- Replacing conflicts by the text of one side gives the same file whether they are refined or not, and what is
outside of the refined hunks is common to both sides. -/
theorem refinedHunks_sides (doDiff : UInt64 → List XRecord → List XRecord → Option (List Bool × List Bool))
    (hdiff : ValidDiff doDiff) (flags : UInt64) (base : List (List UInt8)) (xdf1 xdf2 : XdFile)
    (xscr1 xscr2 : List XdChange) (h1 : ValidScript Eq base xdf1.lines 0 0 xscr1)
    (h2 : ValidScript Eq base xdf2.lines 0 0 xscr2) (xmp : XmParam) :
    refinedHunks doDiff flags xdf1 xdf2 base xmp xscr1 xscr2 = none ∧ DiffFails doDiff ∨
      ∃ hunks, refinedHunks doDiff flags xdf1 xdf2 base xmp xscr1 xscr2 = some hunks ∧
        Sides xdf1.lines xdf2.lines 0 0 hunks xdf1.lines.length xdf2.lines.length ∧
        ∀ favor, favor = XDL_MERGE_FAVOR_OURS ∨ favor = XDL_MERGE_FAVOR_THEIRS →
          fillMergeBuffer base xdf1.lines xdf2.lines { xmp with favor := favor } 0 hunks =
            fillMergeBuffer base xdf1.lines xdf2.lines { xmp with favor := favor } 0
              (unrefinedHunks xdf1 xdf2 base xmp xscr1 xscr2) := by
  obtain hnone | ⟨hunks, hrefined, hsides, htext⟩ := refinedHunks_refines xmp hdiff flags h1 h2
  · exact .inl hnone
  refine .inr ⟨hunks, hrefined, hsides, fun favor hfavor => ?_⟩
  have hold : Sides xdf1.lines xdf2.lines 0 0 _ _ _ := (unrefinedHunks_hunksFrom xmp h1 h2).sides
  have hnew := @Sides.fillMergeBuffer base _ _ { xmp with favor := favor } hfavor 0 0 0 _ hsides le_rfl
  have hunrefined := @Sides.fillMergeBuffer base _ _ { xmp with favor := favor } hfavor 0 0 0 _ hold le_rfl
  rw [htext favor] at hnew
  exact hnew.trans hunrefined.symm

def zealous : XmParam := ⟨0, XDL_MERGE_ZEALOUS, 0, 0, [], [], []⟩

def twoLetters (c d : UInt8) : XdFile where
  recs := [⟨letterLine c, 0⟩, ⟨letterLine d, 1⟩]
  changed := [true, true]
  changed_length := rfl
  nrec_le := show 2 ≤ longMax by decide

theorem refinedHunks_sides_common :
    ∃ hunks, refinedHunks prefixDiff 0 (twoLetters 98 99) (twoLetters 98 100) [letterLine 97] zealous
        [⟨0, 0, 1, 2, false⟩] [⟨0, 0, 1, 2, false⟩] = some hunks ∧
      Sides (twoLetters 98 99).lines (twoLetters 98 100).lines 0 0 hunks (twoLetters 98 99).lines.length
        (twoLetters 98 100).lines.length ∧
      ∀ favor, favor = XDL_MERGE_FAVOR_OURS ∨ favor = XDL_MERGE_FAVOR_THEIRS →
        fillMergeBuffer [letterLine 97] (twoLetters 98 99).lines (twoLetters 98 100).lines
            { zealous with favor := favor } 0 hunks =
          fillMergeBuffer [letterLine 97] (twoLetters 98 99).lines (twoLetters 98 100).lines
            { zealous with favor := favor } 0
            (unrefinedHunks (twoLetters 98 99) (twoLetters 98 100) [letterLine 97] zealous [⟨0, 0, 1, 2, false⟩]
              [⟨0, 0, 1, 2, false⟩]) := by
  have hspec := refinedHunks_sides prefixDiff validDiff_prefixDiff 0 [letterLine 97] (twoLetters 98 99)
    (twoLetters 98 100) [⟨0, 0, 1, 2, false⟩] [⟨0, 0, 1, 2, false⟩]
    (by simp [ValidScript, XdChange.end1, XdChange.end2, XdFile.lines, twoLetters])
    (by simp [ValidScript, XdChange.end1, XdChange.end2, XdFile.lines, twoLetters]) zealous
  refine hspec.resolve_left fun h => ?_
  obtain ⟨-, flags, lines1, lines2, hfails⟩ := h
  cases hfails

end Merge

end GitCore.Xdiff
