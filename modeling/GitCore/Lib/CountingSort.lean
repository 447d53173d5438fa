import Mathlib.Tactic
import Mathlib.Data.Fintype.EquivFin
import Mathlib.Data.List.FinRange

/-!
# Counting sort

Elements are counted by bucket, the counts are summed up, and the elements are placed from the
last one on. The result is stable: elements of one bucket keep their order.
-/

namespace GitCore.CountingSort

variable {α : Type*} (bucket : α → Nat)

def countBuckets (l : List α) : Nat → Nat :=
  l.foldl (fun pos x => Function.update pos (bucket x) (pos (bucket x) + 1)) (fun _ => 0)

def sumBuckets (buckets : Nat) (pos : Nat → Nat) : Nat → Nat :=
  (List.range' 1 (buckets - 1)).foldl (fun pos i => Function.update pos i (pos i + pos (i - 1))) pos

def placeOne (x : α) (s : (Nat → Nat) × List α) : (Nat → Nat) × List α :=
  let k := s.1 (bucket x) - 1
  (Function.update s.1 (bucket x) k, s.2.set k x)

def place (pos : Nat → Nat) (dest l : List α) : List α :=
  (l.foldr (placeOne bucket) (pos, dest)).2

def pass (buckets : Nat) (l dest : List α) : List α :=
  place bucket (sumBuckets buckets (countBuckets bucket l)) dest l

section Loops

variable {S : Type*}

lemma foldl_inv {ι : Type*} {f : S → ι → S} (Inv : List ι → S → Prop) {l : List ι}
    (hstep : ∀ a rest s, Inv (a :: rest) s → Inv rest (f s a)) {s : S} (h : Inv l s) : Inv [] (l.foldl f s) := by
  induction l generalizing s with
  | nil => exact h
  | cons a l ih =>
    rw [List.foldl_cons]
    exact ih (hstep a l s h)

lemma range'_eq_cons {lo hi k : Nat} {rest : List Nat} (h : List.range' lo (hi - lo) = k :: rest) :
    k = lo ∧ lo < hi ∧ rest = List.range' (lo + 1) (hi - (lo + 1)) := by
  have hlt : lo < hi := by
    have hlen := congrArg List.length h
    rw [List.length_cons, List.length_range'] at hlen
    omega
  rw [show hi - lo = hi - (lo + 1) + 1 by omega, List.range'_succ] at h
  obtain ⟨rfl, rfl⟩ := List.cons_eq_cons.mp h
  exact ⟨rfl, hlt, rfl⟩

lemma le_of_range'_eq_nil {lo hi : Nat} (h : List.range' lo (hi - lo) = []) : hi ≤ lo := by
  have hlen := congrArg List.length h
  rw [List.length_nil, List.length_range'] at hlen
  omega

lemma foldl_range'_inv {f : S → Nat → S} (Inv : Nat → S → Prop) {p q : Nat} (hle : p ≤ q)
    (hstep : ∀ k s, p ≤ k → k < q → Inv k s → Inv (k + 1) (f s k)) {s : S} (h : Inv p s) :
    Inv q ((List.range' p (q - p)).foldl f s) := by
  obtain ⟨k, hnil, hlo, hhi, hinv⟩ := foldl_inv (f := f)
    (fun (rest : List Nat) (s : S) => ∃ k, rest = List.range' k (q - k) ∧ p ≤ k ∧ k ≤ q ∧ Inv k s)
    (fun a rest s hrest => by
      obtain ⟨k, hk, hlo, -, hinv⟩ := hrest
      obtain ⟨rfl, hlt, rfl⟩ := range'_eq_cons hk.symm
      exact ⟨a + 1, rfl, Nat.le_succ_of_le hlo, hlt, hstep a s hlo hlt hinv⟩)
    ⟨p, rfl, le_refl p, hle, h⟩
  have hk : k = q := le_antisymm hhi (le_of_range'_eq_nil hnil.symm)
  subst hk
  exact hinv

end Loops

variable {bucket} {l : List α}

section Counts

lemma countBuckets_eq (b : Nat) : countBuckets bucket l b = l.countP (bucket · = b) := by
  unfold countBuckets
  have hfrom (pos : Nat → Nat) :
      l.foldl (fun pos x => Function.update pos (bucket x) (pos (bucket x) + 1)) pos b =
        pos b + l.countP (bucket · = b) := by
    induction l generalizing pos with
    | nil => simp
    | cons x l ih =>
      rw [List.foldl_cons, ih, List.countP_cons]
      by_cases hb : bucket x = b
      · subst hb
        simp only [Function.update_self, decide_true, if_true]
        omega
      · rw [Function.update_of_ne (Ne.symm hb)]
        simp [hb]
  rw [hfrom, Nat.zero_add]

lemma countP_le_eq (b : Nat) :
    l.countP (bucket · ≤ b) = l.countP (bucket · < b) + l.countP (bucket · = b) := by
  induction l with
  | nil => rfl
  | cons x l ih =>
    simp only [List.countP_cons, ih, decide_eq_true_eq]
    split_ifs <;> omega

lemma countP_lt_succ (b : Nat) : l.countP (bucket · < b + 1) = l.countP (bucket · ≤ b) :=
  List.countP_congr fun x _ => by simp

lemma sumBuckets_eq {buckets b : Nat} (hb : b < buckets) :
    sumBuckets buckets (countBuckets bucket l) b = l.countP (bucket · ≤ b) := by
  have hinv : (∀ b < buckets, sumBuckets buckets (countBuckets bucket l) b = l.countP (bucket · ≤ b)) ∧
      ∀ b, buckets ≤ b → sumBuckets buckets (countBuckets bucket l) b = l.countP (bucket · = b) := by
    refine foldl_range'_inv (fun (i : Nat) (pos : Nat → Nat) => (∀ b < i, pos b = l.countP (bucket · ≤ b)) ∧
      ∀ b, i ≤ b → pos b = l.countP (bucket · = b)) (by omega) (fun i pos hi hlt h => ?_) ⟨fun b hb => ?_, fun b _ => ?_⟩
    · refine ⟨fun b hb => ?_, fun b hb => ?_⟩
      · by_cases hbi : b = i
        · subst hbi
          have hprev := h.1 (b - 1) (by omega)
          have hsucc := @countP_lt_succ _ bucket l (b - 1)
          rw [Nat.sub_add_cancel hi] at hsucc
          rw [Function.update_self, h.2 b le_rfl, hprev, ← hsucc, countP_le_eq]
          omega
        · rw [Function.update_of_ne hbi]
          exact h.1 b (by omega)
      · rw [Function.update_of_ne (by omega)]
        exact h.2 b (by omega)
    · obtain rfl : b = 0 := by omega
      rw [countBuckets_eq]
      exact List.countP_congr fun x _ => by simp
    · exact countBuckets_eq b
  exact hinv.1 b hb

end Counts

section Place

variable (bucket) in
def slot (l before : List α) (x : α) : Nat :=
  l.countP (bucket · < bucket x) + before.countP (bucket · = bucket x)

lemma slot_lt {before behind : List α} {x : α} (h : l = before ++ x :: behind) :
    slot bucket l before x < l.countP (bucket · ≤ bucket x) := by
  rw [countP_le_eq, slot]
  refine Nat.add_lt_add_left ?_ _
  rw [h, List.countP_append, List.countP_cons]
  simp only [decide_true, if_true]
  omega

lemma slot_lt_slot {before behind before' behind' : List α} {x y : α} (hx : l = before ++ x :: behind)
    (hy : l = before' ++ y :: behind') (h : bucket x < bucket y ∨ bucket x = bucket y ∧ before.length < before'.length) :
    slot bucket l before x < slot bucket l before' y := by
  rcases h with h | ⟨h, hlen⟩
  · refine (slot_lt hx).trans_le (le_trans ?_ (Nat.le_add_right _ _))
    exact List.countP_mono_left fun z _ hz => by
      simp only [decide_eq_true_eq] at hz ⊢
      omega
  · have hprefix : before ++ [x] <+: before' := by
      refine List.prefix_of_prefix_length_le ⟨behind, ?_⟩ ⟨y :: behind', hy.symm⟩ (by simpa using hlen)
      rw [hx, List.append_assoc]
      rfl
    obtain ⟨more, rfl⟩ := hprefix
    simp only [slot, h, List.countP_append, List.countP_cons, List.countP_nil]
    simp only [decide_true, if_true]
    omega

lemma foldr_placeOne {buckets : Nat} (hbucket : ∀ x ∈ l, bucket x < buckets) {before behind dest : List α}
    (hl : l = before ++ behind) (hdest : l.length ≤ dest.length) :
    let s := behind.foldr (placeOne bucket) (sumBuckets buckets (countBuckets bucket l), dest)
    (∀ b < buckets, s.1 b = l.countP (bucket · < b) + before.countP (bucket · = b)) ∧ s.2.length = dest.length ∧
      ∀ mid x rest, behind = mid ++ x :: rest → s.2[slot bucket l (before ++ mid) x]? = some x := by
  induction behind generalizing before with
  | nil =>
    refine ⟨fun b hb => ?_, rfl, fun mid x rest h => by simp at h⟩
    rw [List.append_nil] at hl
    rw [← hl, ← countP_le_eq]
    exact sumBuckets_eq hb
  | cons y behind ih =>
    intro s
    obtain ⟨hpos, hlen, hplaced⟩ := @ih (before ++ [y]) (by simpa using hl)
    set s' := behind.foldr (placeOne bucket) (sumBuckets buckets (countBuckets bucket l), dest) with hs'
    have hs : s = placeOne bucket y s' := List.foldr_cons ..
    have hy : bucket y < buckets := hbucket y (by simp [hl])
    have hk : s'.1 (bucket y) - 1 = slot bucket l before y := by
      rw [hpos _ hy, slot, List.countP_append, List.countP_cons]
      simp only [decide_true, if_true, List.countP_nil]
      omega
    have hslot : slot bucket l before y < l.length :=
      (slot_lt hl).trans_le List.countP_le_length
    rw [hs]
    simp only [placeOne, hk]
    refine ⟨fun b hb => ?_, by rw [List.length_set, hlen], fun mid x rest h => ?_⟩
    · by_cases hby : b = bucket y
      · subst hby
        rw [Function.update_self, slot]
      · rw [Function.update_of_ne hby, hpos b hb, List.countP_append, List.countP_cons]
        simp [Ne.symm hby]
    · cases mid with
      | nil =>
        obtain ⟨rfl, rfl⟩ := List.cons_eq_cons.mp h
        rw [List.append_nil, List.getElem?_set_self (by omega)]
      | cons z mid =>
        obtain ⟨rfl, rfl⟩ := List.cons_eq_cons.mp h
        have hx : l = (before ++ y :: mid) ++ x :: rest := by simpa using hl
        have hne : slot bucket l before y ≠ slot bucket l (before ++ y :: mid) x := by
          rcases lt_trichotomy (bucket y) (bucket x) with hlt | heq | hlt
          · exact (slot_lt_slot hl hx (.inl hlt)).ne
          · exact (slot_lt_slot hl hx (.inr ⟨heq, by simp⟩)).ne
          · exact (slot_lt_slot hx hl (.inl hlt)).ne'
        rw [List.getElem?_set_ne hne]
        simpa using hplaced mid x rest rfl

end Place

section Pass

variable {buckets : Nat} {dest : List α}

lemma getElem?_pass (hbucket : ∀ x ∈ l, bucket x < buckets) (hdest : dest.length = l.length) :
    (pass bucket buckets l dest).length = l.length ∧
      ∀ before x behind, l = before ++ x :: behind →
        (pass bucket buckets l dest)[slot bucket l before x]? = some x := by
  obtain ⟨-, hlen, hplaced⟩ := @foldr_placeOne _ bucket l buckets hbucket [] l dest rfl hdest.ge
  exact ⟨hlen.trans hdest, fun before x behind h => hplaced before x behind h⟩

lemma split_at (i : Fin l.length) : l = l.take i ++ l[i] :: l.drop (i + 1) := by
  simp

lemma exists_slots (hbucket : ∀ x ∈ l, bucket x < buckets) (hdest : dest.length = l.length) :
    ∃ slots : Equiv.Perm (Fin l.length), (∀ i, (pass bucket buckets l dest)[(slots i).val]? = some l[i]) ∧
      ∀ i j, slots i < slots j → bucket l[i] < bucket l[j] ∨ bucket l[i] = bucket l[j] ∧ i < j := by
  obtain ⟨-, hplaced⟩ := getElem?_pass hbucket hdest
  have hlt (i : Fin l.length) : slot bucket l (l.take i) l[i] < l.length :=
    (slot_lt (split_at i)).trans_le List.countP_le_length
  have hmono (i j : Fin l.length) (h : bucket l[i] < bucket l[j] ∨ bucket l[i] = bucket l[j] ∧ i < j) :
      slot bucket l (l.take i) l[i] < slot bucket l (l.take j) l[j] := by
    refine slot_lt_slot (split_at i) (split_at j) (h.imp_right fun h => ⟨h.1, ?_⟩)
    rw [List.length_take, List.length_take]
    omega
  have htotal (i j : Fin l.length) (hij : i ≠ j) : (bucket l[i] < bucket l[j] ∨ bucket l[i] = bucket l[j] ∧ i < j) ∨
      (bucket l[j] < bucket l[i] ∨ bucket l[j] = bucket l[i] ∧ j < i) := by
    omega
  have hinj : Function.Injective fun i : Fin l.length => (⟨slot bucket l (l.take i) l[i], hlt i⟩ : Fin l.length) := by
    intro i j h
    by_contra hij
    rcases htotal i j hij with hlex | hlex
    · exact (hmono i j hlex).ne (Fin.mk.inj h)
    · exact (hmono j i hlex).ne' (Fin.mk.inj h)
  refine ⟨Equiv.ofBijective _ (Finite.injective_iff_bijective.mp hinj), fun i => hplaced _ _ _ (split_at i),
    fun i j h => ?_⟩
  have hij : i ≠ j := by
    rintro rfl
    exact lt_irrefl _ h
  refine (htotal i j hij).resolve_right fun hlex => ?_
  exact lt_asymm (hmono j i hlex) h

/-- A pass permutes the elements. -/
theorem pass_perm (hbucket : ∀ x ∈ l, bucket x < buckets) (hdest : dest.length = l.length) :
    (pass bucket buckets l dest).Perm l := by
  obtain ⟨hlen, -⟩ := getElem?_pass hbucket hdest
  obtain ⟨slots, hslots, -⟩ := exists_slots hbucket hdest
  have heq : pass bucket buckets l dest = List.ofFn ((fun i : Fin l.length => l[i]) ∘ slots.symm) := by
    refine List.ext_getElem (by simpa using hlen) fun k hk hk' => ?_
    have := hslots (slots.symm ⟨k, hlen ▸ hk⟩)
    rw [Equiv.apply_symm_apply, List.getElem?_eq_getElem hk] at this
    rw [List.getElem_ofFn]
    exact Option.some_inj.mp this
  rw [heq]
  refine (Equiv.Perm.ofFn_comp_perm slots.symm _).trans ?_
  simp

/-- A pass sorts by bucket and keeps the order of the elements of one bucket. -/
theorem pass_pairwise {r : α → α → Prop} (hbucket : ∀ x ∈ l, bucket x < buckets) (hdest : dest.length = l.length)
    (hsorted : l.Pairwise r) :
    (pass bucket buckets l dest).Pairwise fun x y => bucket x < bucket y ∨ bucket x = bucket y ∧ r x y := by
  obtain ⟨hlen, -⟩ := getElem?_pass hbucket hdest
  obtain ⟨slots, hslots, horder⟩ := exists_slots hbucket hdest
  have hget (k : Nat) (hk : k < (pass bucket buckets l dest).length) :
      (pass bucket buckets l dest)[k] = l[slots.symm ⟨k, hlen ▸ hk⟩] := by
    have := hslots (slots.symm ⟨k, hlen ▸ hk⟩)
    rw [Equiv.apply_symm_apply, List.getElem?_eq_getElem hk] at this
    exact Option.some_inj.mp this
  refine List.pairwise_iff_getElem.mpr fun p q hp hq hpq => ?_
  rw [hget p hp, hget q hq]
  refine (horder _ _ ?_).imp_right fun h => ⟨h.1, List.pairwise_iff_getElem.mp hsorted _ _ _ _ h.2⟩
  rw [Equiv.apply_symm_apply, Equiv.apply_symm_apply]
  exact hpq

end Pass

end GitCore.CountingSort
