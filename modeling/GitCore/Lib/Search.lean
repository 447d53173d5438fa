import Mathlib.Tactic

/-!
# Binary search

A search that returns the slot it finds, or `-first - 1` for the slot where the key belongs, one
that only halves its range and compares the slot that is left, and one for the first slot that passes a
test that may fail to answer.
-/

namespace GitCore

/-- Binary search over the slots from `first` to `last`; `cmp` compares the key with a slot. -/
def binarySearch (cmp : Nat → Int) (first last : Nat) : Int :=
  if first < last then
    let next := first + (last - first) / 2
    if cmp next = 0 then next
    else if cmp next < 0 then binarySearch cmp first next
    else binarySearch cmp (next + 1) last
  else -(first : Int) - 1
termination_by last - first

variable {α κ : Type*} [LinearOrder κ] {key : α → κ} {k : κ} {l : List α} {cmp : Nat → Int}

def ComparesKeys (key : α → κ) (k : κ) (l : List α) (cmp : Nat → Int) : Prop :=
  ∀ i p, l[i]? = some p → (cmp i < 0 ↔ k < key p) ∧ (cmp i = 0 ↔ k = key p)

lemma binarySearch_between (hsorted : l.Pairwise (fun a b => key a < key b)) (hcmp : ComparesKeys key k l cmp)
    {first last : Nat} (hfirst : first ≤ last) (hlast : last ≤ l.length)
    (hbefore : ∀ (i : Nat) (p : α), l[i]? = some p → i < first → key p < k)
    (hbehind : ∀ (i : Nat) (p : α), l[i]? = some p → last ≤ i → k < key p) :
    (∃ (i : Nat) (p : α), l[i]? = some p ∧ key p = k ∧ binarySearch cmp first last = i) ∨
      ∃ i : Nat, i ≤ l.length ∧ binarySearch cmp first last = -(i : Int) - 1 ∧
        (∀ (j : Nat) (p : α), l[j]? = some p → j < i → key p < k) ∧ ∀ (j : Nat) (p : α), l[j]? = some p → i ≤ j → k < key p := by
  have hmono : ∀ (i j : Nat) (p q : α), l[i]? = some p → l[j]? = some q → i < j → key p < key q := by
    intro i j p q hp hq hij
    obtain ⟨hi, rfl⟩ := List.getElem?_eq_some_iff.mp hp
    obtain ⟨hj, rfl⟩ := List.getElem?_eq_some_iff.mp hq
    exact List.pairwise_iff_getElem.mp hsorted i j hi hj hij
  induction hn : last - first using Nat.strong_induction_on generalizing first last with
  | _ n ih =>
    rw [binarySearch]
    split_ifs with hlt
    · set next := first + (last - first) / 2 with hnext
      have hnextLt : next < l.length := by omega
      obtain ⟨hneg, hzero⟩ := hcmp next l[next] (List.getElem?_eq_getElem hnextLt)
      have hget := List.getElem?_eq_getElem hnextLt
      dsimp only
      split_ifs with hz hlow
      · exact .inl ⟨next, l[next], hget, (hzero.mp hz).symm, rfl⟩
      · refine ih (next - first) (by omega) (by omega) (by omega) hbefore (fun i p hp hi => ?_) rfl
        obtain rfl | hi := Nat.eq_or_lt_of_le hi
        · rw [hget, Option.some_inj] at hp
          rw [← hp]
          exact hneg.mp hlow
        · exact (hneg.mp hlow).trans (hmono next i _ p hget hp hi)
      · have hgreater : key l[next] < k :=
          lt_of_le_of_ne (not_lt.mp fun h => hlow (hneg.mpr h)) fun h => hz (hzero.mpr h.symm)
        refine ih (last - (next + 1)) (by omega) (by omega) hlast (fun i p hp hi => ?_) hbehind rfl
        obtain rfl | hi := Nat.eq_or_lt_of_le (Nat.le_of_lt_succ hi)
        · rw [hget, Option.some_inj] at hp
          rw [← hp]
          exact hgreater
        · exact (hmono i next p _ hp hget hi).trans hgreater
    · obtain rfl : first = last := by omega
      exact .inr ⟨first, hlast, rfl, hbefore, hbehind⟩

lemma binarySearch_congr {cmp' : Nat → Int} {first last : Nat} (h : ∀ i, first ≤ i → i < last → cmp i = cmp' i) :
    binarySearch cmp first last = binarySearch cmp' first last := by
  induction hn : last - first using Nat.strong_induction_on generalizing first last with
  | _ n ih =>
    rw [binarySearch, binarySearch]
    split_ifs with hlt
    · dsimp only
      rw [h _ (Nat.le_add_right _ _) (by omega)]
      split_ifs
      · rfl
      · exact ih _ (by omega) (fun i hi hi' => h i hi (by omega)) rfl
      · exact ih _ (by omega) (fun i hi hi' => h i (by omega) hi') rfl
    · rfl

/-- The search in a sorted list finds the key, or splits the list where the key belongs. -/
theorem binarySearch_split (hsorted : l.Pairwise (fun a b => key a < key b)) (hcmp : ComparesKeys key k l cmp) :
    (∃ a p b, l = a ++ p :: b ∧ key p = k ∧ binarySearch cmp 0 l.length = a.length) ∨
      ∃ a b, l = a ++ b ∧ (∀ p ∈ a, key p < k) ∧ (∀ p ∈ b, k < key p) ∧
        binarySearch cmp 0 l.length = -(a.length : Int) - 1 := by
  obtain ⟨i, p, hp, hkey, hresult⟩ | ⟨i, hi, hresult, hbefore, hbehind⟩ :=
    binarySearch_between hsorted hcmp (Nat.zero_le _) le_rfl (fun _ _ _ h => absurd h (Nat.not_lt_zero _))
      (fun i p hp h => absurd (List.getElem?_eq_some_iff.mp hp).1 (not_lt.mpr h))
  · obtain ⟨hlt, rfl⟩ := List.getElem?_eq_some_iff.mp hp
    refine .inl ⟨l.take i, l[i], l.drop (i + 1), ?_, hkey, ?_⟩
    · rw [List.getElem_cons_drop, List.take_append_drop]
    · rw [hresult, List.length_take, Nat.min_eq_left hlt.le]
  · refine .inr ⟨l.take i, l.drop i, (List.take_append_drop ..).symm, fun p hp => ?_, fun p hp => ?_, ?_⟩
    · obtain ⟨j, hj, rfl⟩ := List.mem_take_iff_getElem.mp hp
      exact hbefore j _ (List.getElem?_eq_getElem _) (by omega)
    · obtain ⟨j, hj, rfl⟩ := List.mem_drop_iff_getElem.mp hp
      exact hbehind (i + j) _ (List.getElem?_eq_getElem _) (by omega)
    · rw [hresult, List.length_take, Nat.min_eq_left hi]

lemma binarySearch_range (cmp : Nat → Int) (first last : Nat) :
    binarySearch cmp first last < 0 ∨
      ∃ i : Nat, binarySearch cmp first last = i ∧ first ≤ i ∧ i < last ∧ cmp i = 0 := by
  induction hn : last - first using Nat.strong_induction_on generalizing first last with
  | _ n ih =>
    rw [binarySearch]
    split_ifs with hlt
    · dsimp only
      split_ifs with hzero hlow
      · exact .inr ⟨_, rfl, Nat.le_add_right _ _, by omega, hzero⟩
      · exact (ih _ (by omega) _ _ rfl).imp_right fun ⟨i, hi, hfirst, hlast, hcmp⟩ => ⟨i, hi, hfirst, by omega, hcmp⟩
      · exact (ih _ (by omega) _ _ rfl).imp_right fun ⟨i, hi, hfirst, hlast, hcmp⟩ => ⟨i, hi, by omega, hlast, hcmp⟩
    · exact .inl (by omega)

/-- If the search finds every slot by its key, then the slots are sorted. -/
theorem lt_of_binarySearch_self {cmp : κ → Nat → Int} (hcmp : ∀ k, ComparesKeys key k l (cmp k)) {first last : Nat}
    (hlast : last ≤ l.length)
    (hself : ∀ (i : Nat) (p : α), l[i]? = some p → first ≤ i → i < last → binarySearch (cmp (key p)) first last = i)
    {i j : Nat} {p q : α} (hp : l[i]? = some p) (hq : l[j]? = some q) (hi : first ≤ i) (hij : i < j) (hj : j < last) :
    key p < key q := by
  induction hn : last - first using Nat.strong_induction_on generalizing first last with
  | _ n ih =>
    set mid := first + (last - first) / 2 with hmid
    have hget := List.getElem?_eq_getElem (show mid < l.length by omega)
    -- A slot before the middle is smaller, and the search goes on before the middle; behind it, the other way round.
    have hbefore : ∀ (i : Nat) (p : α), l[i]? = some p → first ≤ i → i < mid →
        key p < key l[mid] ∧ binarySearch (cmp (key p)) first mid = i := by
      intro i p hp hi hlt
      have hfound := hself i p hp hi (by omega)
      rw [binarySearch, if_pos (by omega)] at hfound
      dsimp only at hfound
      rw [← hmid] at hfound
      split_ifs at hfound with hzero hlow
      · omega
      · exact ⟨((hcmp _ _ _ hget).1.mp hlow), hfound⟩
      · obtain hneg | ⟨k, hk, hfirst, -, -⟩ := binarySearch_range (cmp (key p)) (mid + 1) last
        · omega
        · omega
    have hbehind : ∀ (i : Nat) (p : α), l[i]? = some p → mid < i → i < last →
        key l[mid] < key p ∧ binarySearch (cmp (key p)) (mid + 1) last = i := by
      intro i p hp hgt hi
      have hfound := hself i p hp (by omega) hi
      rw [binarySearch, if_pos (by omega)] at hfound
      dsimp only at hfound
      rw [← hmid] at hfound
      obtain ⟨hless, hsame⟩ := hcmp (key p) _ _ hget
      split_ifs at hfound with hzero hlow
      · omega
      · obtain hneg | ⟨k, hk, -, hlast, -⟩ := binarySearch_range (cmp (key p)) first mid
        · omega
        · omega
      · exact ⟨lt_of_le_of_ne (not_lt.mp fun h => hlow (hless.mpr h)) fun h => hzero (hsame.mpr h.symm), hfound⟩
    have hsame : ∀ (i : Nat) (p : α), l[i]? = some p → i = mid → p = l[mid] := by
      rintro i p hp rfl
      exact Option.some.inj (hp.symm.trans hget)
    obtain hiMid | hiMid | hiMid := lt_trichotomy i mid
    · have hless := (hbefore i p hp hi hiMid).1
      obtain hjMid | hjMid | hjMid := lt_trichotomy j mid
      · exact ih (mid - first) (by omega) (by omega) (fun k r hr hk hlt => (hbefore k r hr hk hlt).2) hi hjMid rfl
      · rwa [hsame j q hq hjMid]
      · exact hless.trans (hbehind j q hq hjMid hj).1
    · rw [hsame i p hp hiMid]
      exact (hbehind j q hq (by omega) hj).1
    · exact ih (last - (mid + 1)) (by omega) hlast (fun k r hr hk hlt => (hbehind k r hr hk hlt).2) hiMid hj rfl

/-- The slot that is left; `f` compares the element of a slot with the target. -/
def searchBase (f : Nat → Ordering) (base size : Nat) : Nat :=
  if _h : size > 1 then
    let half := size / 2
    let mid := base + half
    searchBase f (if f mid = .gt then base else mid) (size - half)
  else base
termination_by size
decreasing_by omega

def binarySearchBy (f : Nat → Ordering) (size : Nat) : Option Nat :=
  if size = 0 then none
  else
    let base := searchBase f 0 size
    if f base = .eq then some base else none

lemma searchBase_lt (f : Nat → Ordering) (base size : Nat) (hsize : 0 < size) : searchBase f base size < base + size := by
  induction size using Nat.strong_induction_on generalizing base with
  | _ size ih =>
    rw [searchBase]
    split
    · dsimp only
      split
      · have hlt := ih (size - size / 2) (by omega) base (by omega)
        omega
      · have hlt := ih (size - size / 2) (by omega) (base + size / 2) (by omega)
        omega
    · omega

lemma searchBase_eq {f : Nat → Ordering} {n : Nat} (hlt : ∀ i j, i < j → j < n → f j = .lt → f i = .lt)
    (hgt : ∀ i j, i < j → j < n → f i = .gt → f j = .gt) {base size e : Nat} (hn : base + size ≤ n) (hbase : base ≤ e)
    (he : e < base + size) (heq : f e = .eq) : f (searchBase f base size) = .eq := by
  induction size using Nat.strong_induction_on generalizing base e with
  | _ size ih =>
    rw [searchBase]
    split
    · dsimp only
      split
      · rename_i hmid
        have hbelow : e < base + size / 2 := by
          by_contra hge
          rcases Nat.eq_or_lt_of_le (Nat.not_lt.mp hge) with hsame | habove
          · rw [hsame, heq] at hmid
            cases hmid
          · have hcontra := hgt _ _ habove (by omega) hmid
            rw [heq] at hcontra
            cases hcontra
        exact ih (size - size / 2) (by omega) (by omega) hbase (by omega) heq
      · rename_i hmid
        rcases Nat.lt_or_ge e (base + size / 2) with hbelow | habove
        · have hsame : f (base + size / 2) = .eq := by
            cases hcase : f (base + size / 2) with
            | lt =>
              have hcontra := hlt _ _ hbelow (by omega) hcase
              rw [heq] at hcontra
              cases hcontra
            | eq => rfl
            | gt => exact absurd hcase hmid
          exact ih (size - size / 2) (by omega) (by omega) (Nat.le_refl _) (by omega) hsame
        · exact ih (size - size / 2) (by omega) (by omega) habove (by omega) heq
    · rename_i hone
      rwa [show base = e by omega]

lemma binarySearchBy_eq_some {f : Nat → Ordering} {n i : Nat} (h : binarySearchBy f n = some i) : i < n ∧ f i = .eq := by
  unfold binarySearchBy at h
  split at h
  · cases h
  · rename_i hpos
    dsimp only at h
    split at h
    · rename_i heq
      obtain rfl := Option.some.inj h
      have hlt := searchBase_lt f 0 n (by omega)
      exact ⟨by omega, heq⟩
    · cases h

/-- In an order that the target splits, an equal element is found. -/
theorem binarySearchBy_ne_none {f : Nat → Ordering} {n : Nat} (hlt : ∀ i j, i < j → j < n → f j = .lt → f i = .lt)
    (hgt : ∀ i j, i < j → j < n → f i = .gt → f j = .gt) {e : Nat} (he : e < n) (heq : f e = .eq) :
    binarySearchBy f n ≠ none := by
  unfold binarySearchBy
  rw [if_neg (by omega)]
  dsimp only
  rw [if_pos (searchBase_eq hlt hgt (by omega) (Nat.zero_le e) (by omega) heq)]
  exact Option.some_ne_none _

/-- The halving: the test has failed at `lo`, or `lo` is 0, and has passed at `hi`, or `hi` is the end. -/
def firstPassLoop (f : Nat → Option Bool) (lo hi : Nat) : Option (Nat × Nat) :=
  if 1 < hi - lo then
    match f (lo + (hi - lo) / 2) with
    | none => none
    | some true => firstPassLoop f lo (lo + (hi - lo) / 2)
    | some false => firstPassLoop f (lo + (hi - lo) / 2) hi
  else some (lo, hi)
termination_by hi - lo

def firstPass (f : Nat → Option Bool) (size : Nat) : Option Nat :=
  (firstPassLoop f 0 size).bind fun bounds =>
    if bounds.1 = 0 then (f 0).map fun passed => if passed then 0 else 1 else some bounds.2

lemma firstPassLoop_between {f : Nat → Option Bool} {passes : Nat → Prop} [DecidablePred passes] {size lo hi : Nat}
    (hf : ∀ i < size, f i = some (decide (passes i))) (hlo : lo ≤ hi) (hhi : hi ≤ size) (hpos : lo = 0 → 0 < hi)
    (hbelow : lo = 0 ∨ lo < hi ∧ ¬passes lo) (habove : hi = size ∨ passes hi) :
    ∃ lo' hi', firstPassLoop f lo hi = some (lo', hi') ∧ hi' = lo' + 1 ∧ hi' ≤ size ∧ (lo' = 0 ∨ ¬passes lo') ∧
      (hi' = size ∨ passes hi') := by
  induction hn : hi - lo using Nat.strong_induction_on generalizing lo hi with
  | _ n ih =>
    rw [firstPassLoop]
    split_ifs with hwide
    · rw [hf _ (by omega)]
      by_cases hpass : passes (lo + (hi - lo) / 2)
      · rw [decide_eq_true hpass]
        exact ih _ (by omega) (by omega) (by omega) (by omega) (hbelow.imp_right fun h => ⟨by omega, h.2⟩)
          (.inr hpass) rfl
      · rw [decide_eq_false hpass]
        exact ih _ (by omega) (by omega) hhi (by omega) (.inr ⟨by omega, hpass⟩) habove rfl
    · have hone : hi = lo + 1 := by
        rcases hbelow with hzero | hlt
        · have hpos := hpos hzero
          omega
        · omega
      exact ⟨lo, hi, rfl, hone, hhi, hbelow.imp_right And.right, habove⟩

/-- Where the slots that pass are those from some slot on, that slot is found, or the end if there is none. -/
theorem firstPass_split {f : Nat → Option Bool} {passes : Nat → Prop} [DecidablePred passes] {size : Nat}
    (hsize : 0 < size) (hf : ∀ i < size, f i = some (decide (passes i)))
    (hmono : ∀ i j, i < j → j < size → passes i → passes j) :
    ∃ i, firstPass f size = some i ∧ i ≤ size ∧ (∀ j < i, ¬passes j) ∧ ∀ j, i ≤ j → j < size → passes j := by
  obtain ⟨lo, hi, hloop, rfl, hhi, hbelow, habove⟩ :=
    firstPassLoop_between hf (Nat.zero_le size) (le_refl size) (fun _ => hsize) (.inl rfl) (.inl rfl)
  have hbehind : ∀ j, lo + 1 ≤ j → j < size → passes j := by
    intro j hj hlt
    rcases habove with hend | hpass
    · omega
    · rcases Nat.eq_or_lt_of_le hj with heq | hgt
      · rwa [← heq]
      · exact hmono _ _ hgt hlt hpass
  rw [firstPass, hloop, Option.bind_some]
  dsimp only
  by_cases hzero : lo = 0
  · rw [if_pos hzero, hf 0 hsize, Option.map_some]
    subst hzero
    by_cases hpass : passes 0
    · refine ⟨0, by rw [decide_eq_true hpass, if_pos rfl], Nat.zero_le _, fun j hj => absurd hj (Nat.not_lt_zero j), ?_⟩
      intro j _ hlt
      rcases Nat.eq_zero_or_pos j with heq | hpos
      · rwa [heq]
      · exact hbehind j hpos hlt
    · refine ⟨1, by rw [decide_eq_false hpass, if_neg Bool.false_ne_true], hhi, fun j hj => ?_, hbehind⟩
      rwa [Nat.lt_one_iff.mp hj]
  · rw [if_neg hzero]
    have hfail := hbelow.resolve_left hzero
    refine ⟨lo + 1, rfl, hhi, fun j hj hpass => ?_, hbehind⟩
    rcases Nat.eq_or_lt_of_le (Nat.le_of_lt_succ hj) with heq | hlt
    · exact hfail (heq ▸ hpass)
    · exact hfail (hmono j lo hlt (by omega) hpass)

end GitCore
