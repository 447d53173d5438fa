import GitCore.Lib.Loop
import Mathlib.Data.List.GetD

/-!
# Tables with linear probing

An entry stands behind its home, with no free slot between them, around the end of the table. So a walk from the home
of a key ends at its entry, or at a free slot if there is none.
-/

namespace GitCore

section Walks

variable {R : Type*}

/-- A round of a walk: `stop` says whether it ends at a slot, and `next` where it goes on. -/
def probeStep (stop : Nat → Option R) (next : Nat → Nat) (i : Nat) : Nat ⊕ R :=
  match stop i with
  | some r => .inr r
  | none => .inl (next i)

variable {stop : Nat → Option R} {next : Nat → Nat} {n : Nat}

lemma runFor_probe (hnext : ∀ i < n, next i = (i + 1) % n) {m home : Nat} (hhome : home < n)
    (hgo : ∀ k < m, stop ((home + k) % n) = none) {r : R} (hstop : stop ((home + m) % n) = some r) {fuel : Nat}
    (hfuel : m < fuel) : runFor (probeStep stop next) fuel home = some r := by
  induction m generalizing home fuel with
  | zero =>
    obtain ⟨fuel, rfl⟩ := Nat.exists_eq_add_of_le' hfuel
    rw [Nat.add_zero, Nat.mod_eq_of_lt hhome] at hstop
    rw [runFor, probeStep, hstop]
  | succ m ih =>
    obtain ⟨fuel, rfl⟩ := Nat.exists_eq_add_of_le' (Nat.lt_of_lt_of_le (Nat.succ_pos _) hfuel)
    have hhere := hgo 0 (Nat.succ_pos m)
    rw [Nat.add_zero, Nat.mod_eq_of_lt hhome] at hhere
    have hshift : ∀ k, ((home + 1) % n + k) % n = (home + (k + 1)) % n := fun k => by
      rw [Nat.mod_add_mod, Nat.add_assoc, Nat.add_comm 1 k]
    rw [runFor, probeStep, hhere]
    dsimp only
    rw [hnext home hhome]
    refine ih (Nat.mod_lt _ (Nat.zero_lt_of_lt hhome)) (fun k hk => ?_) ?_ (by omega)
    · rw [hshift]
      exact hgo (k + 1) (by omega)
    · rwa [hshift]

/-- A walk around a table with a slot to stop at ends within one round, at the first such slot. -/
theorem exists_probe (hnext : ∀ i < n, next i = (i + 1) % n) {home : Nat} (hhome : home < n)
    (hstop : ∃ i < n, (stop i).isSome) :
    ∃ m < n, ∃ r, (∀ k < m, stop ((home + k) % n) = none) ∧ stop ((home + m) % n) = some r ∧
      ∀ fuel, m < fuel → runFor (probeStep stop next) fuel home = some r := by
  obtain ⟨i, hi, hsome⟩ := hstop
  have hreach : ∃ m, (stop ((home + m) % n)).isSome := by
    refine ⟨i + (n - home), ?_⟩
    rwa [show home + (i + (n - home)) = i + n by omega, Nat.add_mod_right, Nat.mod_eq_of_lt hi]
  obtain ⟨r, hr⟩ := Option.isSome_iff_exists.mp (Nat.find_spec hreach)
  have hlt : Nat.find hreach < n := by
    by_contra hge
    have hwrap : (stop ((home + Nat.find hreach % n) % n)).isSome := by
      rw [Nat.add_mod_mod]
      exact Nat.find_spec hreach
    have hn : 0 < n := Nat.zero_lt_of_lt hhome
    exact Nat.find_min hreach ((Nat.mod_lt _ hn).trans_le (not_lt.mp hge)) hwrap
  have hgo : ∀ k < Nat.find hreach, stop ((home + k) % n) = none := fun k hk =>
    Option.not_isSome_iff_eq_none.mp (Nat.find_min hreach hk)
  exact ⟨Nat.find hreach, hlt, r, hgo, hr, fun fuel hfuel => runFor_probe hnext hhome hgo hr hfuel⟩

end Walks

variable {α K : Type*}

def Reached (slots : List (Option α)) (home i : Nat) : Prop :=
  ∃ d, (home + d) % slots.length = i ∧ ∀ k < d, (slots.getD ((home + k) % slots.length) none).isSome

def Probed (home : α → Nat) (slots : List (Option α)) : Prop :=
  ∀ i a, slots[i]? = some (some a) → Reached slots (home a) i

variable {slots slots' : List (Option α)} {home : α → Nat} {i j : Nat} {a b : α}

lemma getD_of_getElem? {o : Option α} (h : slots[i]? = some o) : slots.getD i none = o := by
  rw [List.getD_eq_getElem?_getD, h, Option.getD_some]

lemma getElem?_of_getD (h : slots.getD i none = some a) : slots[i]? = some (some a) := by
  rw [List.getD_eq_getElem?_getD] at h
  cases hslot : slots[i]? with
  | none =>
    rw [hslot] at h
    cases h
  | some o =>
    rw [hslot, Option.getD_some] at h
    rw [h]

lemma Reached.mono (hlength : slots'.length = slots.length)
    (hsome : ∀ k, (slots.getD k none).isSome → (slots'.getD k none).isSome) (h : Reached slots i j) :
    Reached slots' i j := by
  obtain ⟨d, hd, hbetween⟩ := h
  rw [Reached, hlength]
  exact ⟨d, hd, fun k hk => hsome _ (hbetween k hk)⟩

lemma Reached.trans {m : Nat} (h : Reached slots i j) (h' : Reached slots j m) : Reached slots i m := by
  obtain ⟨d, rfl, hbetween⟩ := h
  obtain ⟨e, rfl, hbetween'⟩ := h'
  refine ⟨d + e, by rw [← Nat.add_assoc, Nat.mod_add_mod], fun k hk => ?_⟩
  obtain hlt | hge := lt_or_ge k d
  · exact hbetween k hlt
  · have hlast := hbetween' (k - d) (by omega)
    rwa [Nat.mod_add_mod, Nat.add_assoc, Nat.add_sub_cancel' hge] at hlast

lemma getD_set_isSome (slots : List (Option α)) (i : Nat) (a : α) (k : Nat) :
    (slots.getD k none).isSome → ((slots.set i (some a)).getD k none).isSome := by
  intro hk
  rw [List.getD_eq_getElem?_getD, List.getElem?_set]
  split_ifs with hik hlt
  · exact rfl
  · subst hik
    rw [List.getD_eq_default _ _ (not_lt.mp hlt)] at hk
    exact hk
  · rwa [List.getD_eq_getElem?_getD] at hk

lemma Probed.insert (h : Probed home slots) (hreached : Reached slots (home a) i) :
    Probed home (slots.set i (some a)) := by
  have hmono : ∀ {m j}, Reached slots m j → Reached (slots.set i (some a)) m j := fun hr =>
    hr.mono List.length_set (getD_set_isSome slots i _)
  intro k c hk
  rw [List.getElem?_set] at hk
  split_ifs at hk with hik hlt
  · obtain rfl : a = c := by simpa using hk
    exact hik ▸ hmono hreached
  · exact hmono (h k c hk)

lemma Probed.swap (h : Probed home slots) (hj : slots[j]? = some (some b))
    (hhome : home a = j) (hreached : Reached slots j i) : Probed home ((slots.set i (some b)).set j (some a)) := by
  have hself : Reached slots (home a) j :=
    ⟨0, by rw [Nat.add_zero, hhome, Nat.mod_eq_of_lt (List.getElem?_eq_some_iff.mp hj).1], by simp⟩
  have hmoved : Probed home (slots.set i (some b)) := h.insert ((h j b hj).trans hreached)
  exact hmoved.insert (hself.mono List.length_set (getD_set_isSome slots i b))

lemma filterMap_set_perm (h : slots[i]? = some none) (a : α) :
    ((slots.set i (some a)).filterMap id).Perm (a :: slots.filterMap id) := by
  obtain ⟨hlt, hget⟩ := List.getElem?_eq_some_iff.mp h
  have hsplit : slots = slots.take i ++ none :: slots.drop (i + 1) := by
    rw [← hget, List.getElem_cons_drop, List.take_append_drop]
  have hset : slots.set i (some a) = slots.take i ++ some a :: slots.drop (i + 1) :=
    List.set_eq_take_append_cons_drop.trans (if_pos hlt)
  rw [hset]
  conv_rhs => rw [hsplit]
  rw [List.filterMap_append, List.filterMap_append, List.filterMap_cons_some (by rfl),
    List.filterMap_cons_none (by rfl)]
  exact List.perm_middle

lemma swap_perm (hi : slots[i]? = some (some a)) (hj : slots[j]? = some (some b)) :
    (((slots.set i (some b)).set j (some a)).filterMap id).Perm (slots.filterMap id) := by
  obtain ⟨hlt, hget⟩ := List.getElem?_eq_some_iff.mp hi
  obtain ⟨hlt', hget'⟩ := List.getElem?_eq_some_iff.mp hj
  rw [← hget, ← hget']
  exact (List.set_set_perm hlt hlt').filterMap id

lemma exists_free (h : (slots.filterMap id).length < slots.length) : ∃ i : Nat, slots[i]? = some none := by
  by_contra hno
  refine h.ne (List.filterMap_length_eq_length.mpr fun o ho => ?_)
  obtain ⟨i, hi, rfl⟩ := List.getElem_of_mem ho
  cases hslot : slots[i] with
  | some a => rfl
  | none => exact absurd ⟨i, by rw [List.getElem?_eq_getElem hi, hslot]⟩ hno

lemma mem_filterMap_iff : a ∈ slots.filterMap id ↔ ∃ i : Nat, slots[i]? = some (some a) := by
  rw [List.mem_filterMap]
  constructor
  · rintro ⟨o, ho, rfl⟩
    exact List.mem_iff_getElem?.mp ho
  · intro h
    exact ⟨some a, List.mem_iff_getElem?.mpr h, rfl⟩

end GitCore
