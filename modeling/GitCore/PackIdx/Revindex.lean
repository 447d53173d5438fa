import GitCore.PackIdx.IdxFileSpec

/-!
# Reverse indexes

The sorted entries of a pack index with the sentinel behind them, and the search for an offset in them.
-/

namespace GitCore.PackIdx

inductive PosError
  | outOfBounds
  | badOffset
  deriving DecidableEq

def packPosToOffset (revindex : Revindex) (pos : Nat) : Except PosError Int :=
  match (revindex.entries.map (fun e => (e.offset : Int)) ++ [revindex.packEnd])[pos]? with
  | some offset => .ok offset
  | none => .error .outOfBounds

def offsetToPackPosLoop (revindex : Revindex) (ofs : Int) (lo hi : Nat) : Except PosError Nat := do
  let mi := lo + (hi - lo) / 2
  let got ← packPosToOffset revindex mi
  if got = ofs then return mi
  else if ofs < got then
    if lo < mi then offsetToPackPosLoop revindex ofs lo mi else throw .badOffset
  else if mi + 1 < hi then offsetToPackPosLoop revindex ofs (mi + 1) hi
  else throw .badOffset
termination_by hi - lo

def offsetToPackPos (revindex : Revindex) (ofs : Int) : Except PosError Nat :=
  offsetToPackPosLoop revindex ofs 0 ((revindex.entries.length + 1) % 2 ^ 32)

section Search

variable {revindex : Revindex}

structure Ordered (revindex : Revindex) : Prop where
  sorted : revindex.entries.Pairwise Before
  le_end : ∀ e ∈ revindex.entries, (e.offset : Int) ≤ revindex.packEnd

lemma packPosToOffset_lt {pos : Nat} (hpos : pos < revindex.entries.length) :
    packPosToOffset revindex pos = .ok (revindex.entries[pos].offset : Int) := by
  rw [packPosToOffset, List.getElem?_append_left (by simpa using hpos), List.getElem?_map,
    List.getElem?_eq_getElem hpos]
  rfl

lemma packPosToOffset_length : packPosToOffset revindex revindex.entries.length = .ok revindex.packEnd := by
  rw [packPosToOffset, List.getElem?_append_right (by simp)]
  simp

lemma packPosToOffset_eq_ok {pos : Nat} {ofs : Int} (h : packPosToOffset revindex pos = .ok ofs) :
    pos ≤ revindex.entries.length := by
  by_contra hgt
  rw [packPosToOffset, List.getElem?_eq_none (by simp; omega)] at h
  cases h

lemma packPosToOffset_inj (hnodup : (revindex.entries.map (·.offset)).Nodup)
    (hend : ∀ e ∈ revindex.entries, (e.offset : Int) ≠ revindex.packEnd) {i j : Nat} {ofs : Int}
    (hi : packPosToOffset revindex i = .ok ofs) (hj : packPosToOffset revindex j = .ok ofs) : i = j := by
  have hsome : ∀ pos, packPosToOffset revindex pos = .ok ofs →
      (revindex.entries.map (fun e => (e.offset : Int)) ++ [revindex.packEnd])[pos]? = some ofs := fun pos hpos => by
    rw [packPosToOffset] at hpos
    split at hpos
    · rename_i offset hget
      rw [hget, Except.ok.inj hpos]
    · cases hpos
  have hall : (revindex.entries.map (fun e => (e.offset : Int)) ++ [revindex.packEnd]).Nodup := by
    refine List.nodup_append.mpr ⟨?_, List.nodup_singleton _, fun a ha b hb hab => ?_⟩
    · have hcast := hnodup.map (f := Nat.cast (R := Int)) Nat.cast_injective
      rwa [List.map_map] at hcast
    · obtain ⟨e, he, rfl⟩ := List.mem_map.mp ha
      exact hend e he (hab.trans (List.mem_singleton.mp hb))
  obtain ⟨hlt, -⟩ := List.getElem?_eq_some_iff.mp (hsome i hi)
  exact (List.getElem?_inj hlt hall).mp ((hsome i hi).trans (hsome j hj).symm)

lemma packPosToOffset_le (h : Ordered revindex) {i j : Nat} {a b : Int} (hij : i ≤ j)
    (ha : packPosToOffset revindex i = .ok a) (hb : packPosToOffset revindex j = .ok b) : a ≤ b := by
  obtain rfl | hlt := Nat.eq_or_lt_of_le hij
  · exact (Except.ok.inj (ha.symm.trans hb)).le
  · have hj := packPosToOffset_eq_ok hb
    have hi : i < revindex.entries.length := by omega
    rw [packPosToOffset_lt hi] at ha
    obtain rfl := Except.ok.inj ha
    obtain rfl | hjlt := Nat.eq_or_lt_of_le hj
    · rw [packPosToOffset_length] at hb
      obtain rfl := Except.ok.inj hb
      exact h.le_end _ (List.getElem_mem hi)
    · rw [packPosToOffset_lt hjlt] at hb
      obtain rfl := Except.ok.inj hb
      exact Int.ofNat_le.mpr (List.pairwise_iff_getElem.mp h.sorted i j hi hjlt hlt).le

lemma offsetToPackPosLoop_spec (h : Ordered revindex) {ofs : Int} {lo hi : Nat} (hlt : lo < hi)
    (hhi : hi ≤ revindex.entries.length + 1)
    (hout : ∀ pos, packPosToOffset revindex pos = .ok ofs → lo ≤ pos ∧ pos < hi) :
    (∃ pos, offsetToPackPosLoop revindex ofs lo hi = .ok pos ∧ packPosToOffset revindex pos = .ok ofs) ∨
      offsetToPackPosLoop revindex ofs lo hi = .error .badOffset ∧
        ∀ pos, packPosToOffset revindex pos ≠ .ok ofs := by
  induction hn : hi - lo using Nat.strong_induction_on generalizing lo hi with
  | _ n ih =>
    rw [offsetToPackPosLoop]
    have hmi : lo + (hi - lo) / 2 < hi := by omega
    have hle : lo ≤ lo + (hi - lo) / 2 := Nat.le_add_right _ _
    generalize lo + (hi - lo) / 2 = mi at *
    obtain ⟨got, hgot⟩ : ∃ got, packPosToOffset revindex mi = .ok got := by
      obtain heq | hlt' := Nat.eq_or_lt_of_le (show mi ≤ revindex.entries.length by omega)
      · exact ⟨_, heq ▸ packPosToOffset_length⟩
      · exact ⟨_, packPosToOffset_lt hlt'⟩
    rw [hgot]
    change (∃ pos, (if got = ofs then Except.ok mi else _) = _ ∧ _) ∨ (if got = ofs then Except.ok mi else _) = _ ∧ _
    split_ifs with heq hbelow hmore hmore
    · exact .inl ⟨mi, rfl, heq ▸ hgot⟩
    · refine ih (mi - lo) (by omega) hmore (by omega) (fun pos hpos => ⟨(hout pos hpos).1, ?_⟩) rfl
      exact not_le.mp fun hge => absurd (packPosToOffset_le h hge hgot hpos) (not_le.mpr hbelow)
    · refine .inr ⟨rfl, fun pos hpos => ?_⟩
      have hge : mi ≤ pos := by have := (hout pos hpos).1; omega
      exact absurd (packPosToOffset_le h hge hgot hpos) (not_le.mpr hbelow)
    · refine ih (hi - (mi + 1)) (by omega) hmore hhi (fun pos hpos => ⟨?_, (hout pos hpos).2⟩) rfl
      exact not_lt.mp fun hge => absurd (packPosToOffset_le h (Nat.le_of_lt_succ hge) hpos hgot) (by omega)
    · refine .inr ⟨rfl, fun pos hpos => ?_⟩
      have hge : pos ≤ mi := by have := (hout pos hpos).2; omega
      exact absurd (packPosToOffset_le h hge hpos hgot) (by omega)

end Search

section Create

variable {algo : HashAlgo} {p : PackedGit}

lemma length_revOffsets (data : List UInt8) (num off32 off64 : Nat) : (revOffsets data num off32 off64).length = num := by
  induction num generalizing off32 off64 with
  | zero => rfl
  | succ num ih =>
    rw [revOffsets]
    split_ifs <;> rw [List.length_cons, ih]

lemma length_extractOffsets : (extractOffsets algo p).length = p.numObjects := by
  rw [extractOffsets]
  split_ifs
  · exact length_revOffsets _ _ _ _
  · simp

lemma map_indexEntries (offsets : List Nat) : (indexEntries offsets).map (·.offset) = offsets := by
  rw [indexEntries, List.map_map]
  exact List.ext_getElem (by simp) fun i hi hi' => by simp

end Create

def zeroHash : HashAlgo := ⟨20, by decide, 1, fun _ => List.replicate 20 0, fun _ => by simp⟩

/-- A pack of `packSize` bytes with an index of version 1 of one object at the offset 100. -/
def oneObject (packSize : Nat) : PackedGit := ⟨1, List.replicate 1024 0 ++ beBytes 4 100 ++ List.replicate 20 0, 1, packSize⟩

lemma extractOffsets_oneObject (packSize : Nat) : extractOffsets zeroHash (oneObject packSize) = [100] := by
  have hindex : beAt (oneObject packSize).indexData 1024 4 = 100 := by
    rw [beAt, oneObject, slice, List.append_assoc, List.drop_left' List.length_replicate,
      List.take_left' (length_beBytes 4 100)]
    decide
  rw [extractOffsets, if_neg (show ¬1 < (oneObject packSize).indexVersion from lt_irrefl 1)]
  exact congrArg (fun n => [n]) hindex

end GitCore.PackIdx
