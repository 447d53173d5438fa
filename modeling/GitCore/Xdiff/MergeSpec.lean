import GitCore.Lib.Segment
import GitCore.Xdiff.Merge

/-!
# The hunks of a three-way merge

A merge walks along the base and both sides. Between the hunks the sides agree; a hunk that is still
open reaches to the end of a change that the other side may continue to touch.
-/

namespace GitCore.Xdiff

section Script

variable {α : Type*} (r : α → α → Prop) (base side : List α)

/-- The edit script turns the base into the side from these lines on, and its changes are apart. -/
def ValidScript : Nat → Nat → List XdChange → Prop
  | q0, q1, [] => q0 ≤ base.length ∧ q1 ≤ side.length ∧ List.Forall₂ r (base.drop q0) (side.drop q1)
  | q0, q1, c :: rest => (q0 ≤ c.i1 ∧ q1 ≤ c.i2 ∧ List.Forall₂ r (segment base q0 c.i1) (segment side q1 c.i2)) ∧
      c.end1 ≤ base.length ∧ c.end2 ≤ side.length ∧ (∀ d ∈ rest.head?, c.end1 < d.i1) ∧
      ValidScript c.end1 c.end2 rest

def ValidTail (c : XdChange) (rest : List XdChange) : Prop :=
  c.end1 ≤ base.length ∧ c.end2 ≤ side.length ∧ (∀ d ∈ rest.head?, c.end1 < d.i1) ∧
    ValidScript r base side c.end1 c.end2 rest

def nextChange (script : List XdChange) : Nat :=
  match script with
  | [] => base.length
  | c :: _ => c.i1

def nextOffset (script : List XdChange) : Int :=
  match script with
  | [] => (side.length : Int) - base.length
  | c :: _ => (c.i2 : Int) - c.i1

variable {r base side} {q0 q1 n : Nat} {script rest : List XdChange} {c : XdChange}

lemma ValidScript.le (h : ValidScript r base side q0 q1 script) :
    q0 ≤ nextChange base script ∧ nextChange base script ≤ base.length ∧ q1 ≤ side.length := by
  cases script with
  | nil => exact ⟨h.1, le_rfl, h.2.1⟩
  | cons c rest =>
    obtain ⟨⟨hq0, hq1, -⟩, hend1, hend2, -⟩ := h
    unfold XdChange.end1 at hend1
    unfold XdChange.end2 at hend2
    unfold nextChange
    dsimp only
    omega

lemma ValidScript.gap (h : ValidScript r base side q0 q1 script) :
    List.Forall₂ r (segment base q0 (nextChange base script))
      (segment side q1 (q1 + (nextChange base script - q0))) ∧
      q1 + (nextChange base script - q0) ≤ side.length ∧ (q1 : Int) - q0 = nextOffset base side script := by
  cases script with
  | nil =>
    obtain ⟨hq0, hq1, hrest⟩ := h
    have hlen := hrest.length_eq
    rw [List.length_drop, List.length_drop] at hlen
    unfold nextChange nextOffset
    dsimp only
    rw [show q1 + (base.length - q0) = side.length by omega, segment_length, segment_length]
    exact ⟨hrest, le_rfl, by omega⟩
  | cons c rest =>
    obtain ⟨⟨hq0, hq1, hgap⟩, hend1, hend2, -⟩ := h
    unfold XdChange.end1 at hend1
    unfold XdChange.end2 at hend2
    have hlen := hgap.length_eq
    rw [length_segment (by omega), length_segment (by omega)] at hlen
    unfold nextChange nextOffset
    dsimp only
    rw [show q1 + (c.i1 - q0) = c.i2 by omega]
    exact ⟨hgap, by omega, by omega⟩

lemma ValidScript.part (h : ValidScript r base side q0 q1 script) {k n : Nat} (hn : q0 + k + n ≤ nextChange base script) :
    List.Forall₂ r (segment base (q0 + k) (q0 + k + n)) (segment side (q1 + k) (q1 + k + n)) :=
  forall₂_segment h.gap.1 n hn (by omega)

lemma ValidScript.advance (h : ValidScript r base side q0 q1 script) (hn : q0 + n ≤ nextChange base script) :
    ValidScript r base side (q0 + n) (q1 + n) script := by
  obtain ⟨hle, hbase, hside⟩ := h.le
  obtain ⟨-, hroom, hoffset⟩ := h.gap
  have hpart := h.part (k := n) (n := nextChange base script - (q0 + n)) (by omega)
  cases script with
  | nil =>
    refine ⟨hn, by omega, ?_⟩
    unfold nextChange nextOffset at *
    dsimp only at *
    rw [show q0 + n + (base.length - (q0 + n)) = base.length by omega,
      show q1 + n + (base.length - (q0 + n)) = side.length by omega, segment_length, segment_length] at hpart
    exact hpart
  | cons c rest =>
    obtain ⟨⟨hq0, hq1, -⟩, htail⟩ := h
    unfold nextChange nextOffset at *
    dsimp only at *
    refine ⟨⟨hn, by omega, ?_⟩, htail⟩
    rw [show q0 + n + (c.i1 - (q0 + n)) = c.i1 by omega, show q1 + n + (c.i1 - (q0 + n)) = c.i2 by omega] at hpart
    exact hpart

lemma ValidScript.tail (h : ValidScript r base side q0 q1 (c :: rest)) : ValidTail r base side c rest := h.2

lemma ValidTail.lt (h : ValidTail r base side c rest) : ∀ d ∈ rest, c.end1 < d.i1 := by
  induction rest generalizing c with
  | nil => simp
  | cons e rest ih =>
    obtain ⟨-, -, hnext, htail⟩ := h
    have hfirst : c.end1 < e.i1 := hnext e rfl
    intro d hd
    obtain rfl | hd := List.mem_cons.mp hd
    · exact hfirst
    · have := ih htail.tail d hd
      unfold XdChange.end1 at *
      omega

lemma forall₂_of_map_eq {β γ : Type*} {f : β → γ} {R : β → β → Prop} {xs ys : List β} (h : xs.map f = ys.map f)
    (hR : ∀ x ∈ xs, ∀ y ∈ ys, f x = f y → R x y) : List.Forall₂ R xs ys := by
  induction xs generalizing ys with
  | nil =>
    obtain rfl : ys = [] := by simpa using h.symm
    exact .nil
  | cons x xs ih =>
    cases ys with
    | nil => simp at h
    | cons y ys =>
      rw [List.map_cons, List.map_cons, List.cons.injEq] at h
      exact .cons (hR x List.mem_cons_self y List.mem_cons_self h.1)
        (ih h.2 fun x' hx' y' hy' => hR x' (List.mem_cons_of_mem _ hx') y' (List.mem_cons_of_mem _ hy'))

theorem buildScript_validScript {xe : XdfEnv} (lines : XRecord → α)
    (hr : ∀ x ∈ xe.xdf1.recs, ∀ y ∈ xe.xdf2.recs, x.minimalPerfectHash = y.minimalPerfectHash → r (lines x) (lines y))
    (h : SameLines xe.xdf1.unchanged xe.xdf2.unchanged) :
    ValidScript r (xe.xdf1.recs.map lines) (xe.xdf2.recs.map lines) 0 0 (buildScript xe) := by
  have hlines : ∀ {a b c d : Nat}, SameLines (xe.xdf1.slice a b) (xe.xdf2.slice c d) →
      List.Forall₂ r (segment (xe.xdf1.recs.map lines) a b) (segment (xe.xdf2.recs.map lines) c d) := by
    intro a b c d hsame
    rw [segment, segment, ← List.map_drop, ← List.map_drop, ← List.map_take, ← List.map_take,
      List.forall₂_map_left_iff, List.forall₂_map_right_iff]
    exact forall₂_of_map_eq hsame fun x hx y hy =>
      hr x (List.mem_of_mem_drop (List.mem_of_mem_take hx)) y (List.mem_of_mem_drop (List.mem_of_mem_take hy))
  have hvalid : ∀ {script : List XdChange} {p1 p2 : Nat}, Aligned xe p1 p2 script →
      script.IsChain (fun c d => c.end1 < d.i1) →
      ValidScript r (xe.xdf1.recs.map lines) (xe.xdf2.recs.map lines) p1 p2 script := by
    intro script
    induction script with
    | nil =>
      intro p1 p2 h _
      obtain ⟨h1, h2, hsame⟩ := h
      have hrest := hlines hsame
      rw [XdFile.nrec] at h1 h2 hrest
      rw [XdFile.nrec, ← List.length_map lines, segment_length, ← List.length_map lines, segment_length] at hrest
      exact ⟨by rwa [List.length_map], by rwa [List.length_map], hrest⟩
    | cons c rest ih =>
      intro p1 p2 h hchain
      obtain ⟨h1, h2, hsame, hend1, hend2, hrest⟩ := h
      obtain ⟨hhead, htail⟩ := List.isChain_cons.mp hchain
      exact ⟨⟨h1, h2, hlines hsame⟩, by rwa [List.length_map], by rwa [List.length_map], hhead, ih hrest htail⟩
  exact hvalid (buildScript_aligned h) (buildScript_apart h)

end Script

structure Pos where
  p0 : Nat
  p1 : Nat
  p2 : Nat

def Pos.swap (p : Pos) : Pos := ⟨p.p0, p.p2, p.p1⟩

def swapMode (mode : Nat) : Nat := if mode = 1 then 2 else if mode = 2 then 1 else mode

def XdMerge.swap (m : XdMerge) : XdMerge := ⟨swapMode m.mode, m.i0, m.chg0, m.i2, m.chg2, m.i1, m.chg1⟩

variable {α : Type*} (r : α → α → Prop) (base side1 side2 : List α)

inductive Agree : List α → List α → List α → Prop
  | nil : Agree [] [] []
  | common {b x y : α} {bs xs ys : List α} (hx : r b x) (hy : r b y) (h : Agree bs xs ys) :
      Agree (b :: bs) (x :: xs) (y :: ys)
  | same {x y bs xs ys : List α} (b : List α) (hxy : List.Forall₂ r x y) (h : Agree bs xs ys) :
      Agree (b ++ bs) (x ++ xs) (y ++ ys)

structure Between (a b : Pos) : Prop where
  le0 : a.p0 ≤ b.p0
  le1 : a.p1 ≤ b.p1
  le2 : a.p2 ≤ b.p2
  inside0 : b.p0 ≤ base.length
  inside1 : b.p1 ≤ side1.length
  inside2 : b.p2 ≤ side2.length
  agree : Agree r (segment base a.p0 b.p0) (segment side1 a.p1 b.p1) (segment side2 a.p2 b.p2)

structure HunkAt (m : XdMerge) (a b : Pos) : Prop where
  i0 : m.i0 = a.p0
  i1 : m.i1 = a.p1
  i2 : m.i2 = a.p2
  end0 : m.i0 + m.chg0 = b.p0
  end1 : m.i1 + m.chg1 = b.p1
  end2 : m.i2 + m.chg2 = b.p2
  le0 : a.p0 ≤ b.p0
  le1 : a.p1 ≤ b.p1
  le2 : a.p2 ≤ b.p2
  mode : m.mode ≤ 2
  first : m.mode = 1 → List.Forall₂ r (segment base a.p0 b.p0) (segment side2 a.p2 b.p2)
  second : m.mode = 2 → List.Forall₂ r (segment base a.p0 b.p0) (segment side1 a.p1 b.p1)

def Built : List XdMerge → Pos → Prop
  | [], e => e = ⟨0, 0, 0⟩
  | m :: rest, e => ∃ a b, Built rest a ∧ Between r base side1 side2 a b ∧ HunkAt r base side1 side2 m b e

def Covered (x : Nat) (hunks : List XdMerge) : Prop :=
  ∃ m ∈ hunks, m.mode = 0 ∧ m.i0 ≤ x ∧ (x : Int) < m.i0 + m.chg0

def InChange (c : XdChange) (x : Nat) : Prop := c.i1 ≤ x ∧ x < c.end1

variable {r base side1 side2}

namespace Agree

lemma append {bs xs ys bs' xs' ys' : List α} (h : Agree r bs xs ys) (h' : Agree r bs' xs' ys') :
    Agree r (bs ++ bs') (xs ++ xs') (ys ++ ys') := by
  induction h with
  | nil => exact h'
  | common hx hy _ ih => exact .common hx hy ih
  | same b hxy _ ih =>
    simp only [List.append_assoc]
    exact .same b hxy ih

lemma of_common {bs xs ys : List α} (hx : List.Forall₂ r bs xs) (hy : List.Forall₂ r bs ys) : Agree r bs xs ys := by
  induction hx generalizing ys with
  | nil =>
    cases hy
    exact .nil
  | cons hbx _ ih =>
    cases hy with
    | cons hby hy => exact .common hbx hby (ih hy)

lemma of_same {xs ys : List α} (bs : List α) (h : List.Forall₂ r xs ys) : Agree r bs xs ys := by
  have := Agree.same bs h Agree.nil
  rwa [List.append_nil, List.append_nil, List.append_nil] at this

lemma swap (hsymm : ∀ x y, r x y → r y x) {bs xs ys : List α} (h : Agree r bs xs ys) : Agree r bs ys xs := by
  induction h with
  | nil => exact .nil
  | common hx hy _ ih => exact .common hy hx ih
  | same b hxy _ ih => exact .same b (List.Forall₂.flip (hxy.imp hsymm)) ih

lemma sides (hr : Equivalence r) {bs xs ys : List α} (h : Agree r bs xs ys) : List.Forall₂ r xs ys := by
  induction h with
  | nil => exact .nil
  | common hx hy _ ih => exact .cons (hr.trans (hr.symm hx) hy) ih
  | same b hxy _ ih => exact List.rel_append hxy ih

end Agree

namespace Between

lemma refl {a : Pos} (h0 : a.p0 ≤ base.length) (h1 : a.p1 ≤ side1.length) (h2 : a.p2 ≤ side2.length) :
    Between r base side1 side2 a a := by
  refine ⟨le_rfl, le_rfl, le_rfl, h0, h1, h2, ?_⟩
  rw [segment_self, segment_self, segment_self]
  exact .nil

lemma trans {a b c : Pos} (h : Between r base side1 side2 a b) (h' : Between r base side1 side2 b c) :
    Between r base side1 side2 a c := by
  refine ⟨h.le0.trans h'.le0, h.le1.trans h'.le1, h.le2.trans h'.le2, h'.inside0, h'.inside1, h'.inside2, ?_⟩
  have := h.agree.append h'.agree
  rwa [segment_append _ h.le0 h'.le0, segment_append _ h.le1 h'.le1, segment_append _ h.le2 h'.le2] at this

lemma swap (hsymm : ∀ x y, r x y → r y x) {a b : Pos} (h : Between r base side1 side2 a b) :
    Between r base side2 side1 a.swap b.swap :=
  ⟨h.le0, h.le2, h.le1, h.inside0, h.inside2, h.inside1, h.agree.swap hsymm⟩

lemma advance {p : Pos} {s1 s2 : List XdChange} {n : Nat} (h1 : ValidScript r base side1 p.p0 p.p1 s1)
    (h2 : ValidScript r base side2 p.p0 p.p2 s2) (hn1 : p.p0 + n ≤ nextChange base s1)
    (hn2 : p.p0 + n ≤ nextChange base s2) :
    Between r base side1 side2 p ⟨p.p0 + n, p.p1 + n, p.p2 + n⟩ := by
  obtain ⟨-, hbase, -⟩ := h1.le
  obtain ⟨-, hroom1, -⟩ := h1.gap
  obtain ⟨-, hroom2, -⟩ := h2.gap
  have hsame1 := h1.part (k := 0) (n := n) (by omega)
  have hsame2 := h2.part (k := 0) (n := n) (by omega)
  rw [Nat.add_zero, Nat.add_zero] at hsame1 hsame2
  exact ⟨by simp, by simp, by simp, by dsimp only; omega, by dsimp only; omega, by dsimp only; omega,
    Agree.of_common hsame1 hsame2⟩

end Between

lemma HunkAt.swap {m : XdMerge} {a b : Pos} (h : HunkAt r base side1 side2 m a b) :
    HunkAt r base side2 side1 m.swap a.swap b.swap where
  i0 := h.i0
  i1 := h.i2
  i2 := h.i1
  end0 := h.end0
  end1 := h.end2
  end2 := h.end1
  le0 := h.le0
  le1 := h.le2
  le2 := h.le1
  mode := by
    have := h.mode
    simp only [XdMerge.swap, swapMode]
    split_ifs <;> omega
  first hmode := h.second (by
    simp only [XdMerge.swap, swapMode] at hmode
    split_ifs at hmode <;> omega)
  second hmode := h.first (by
    simp only [XdMerge.swap, swapMode] at hmode
    split_ifs at hmode <;> omega)

lemma Built.swap (hsymm : ∀ x y, r x y → r y x) {hunks : List XdMerge} {e : Pos}
    (h : Built r base side1 side2 hunks e) : Built r base side2 side1 (hunks.map XdMerge.swap) e.swap := by
  induction hunks generalizing e with
  | nil =>
    rw [Built] at h
    rw [h]
    rfl
  | cons m rest ih =>
    obtain ⟨a, b, hrest, hbetween, hm⟩ := h
    exact ⟨a.swap, b.swap, ih hrest, hbetween.swap hsymm, hm.swap⟩

end GitCore.Xdiff
