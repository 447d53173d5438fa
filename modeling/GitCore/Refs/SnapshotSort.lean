import GitCore.Refs.SnapshotSearch
import Mathlib.Data.List.Sort

/-!
# Sorting the packed refs

`sort_snapshot` finds the records of a snapshot, each with its peeled line, and puts them in the order of
their names.
-/

namespace GitCore.Refs

variable {hexsz : Nat} {snapshot : List UInt8}

lemma memchr_some {pos i : Nat} {c : UInt8} (h : memchr snapshot pos c = some i) :
    ∃ line rest, snapshot.drop pos = line ++ c :: rest ∧ c ∉ line ∧ i = pos + line.length ∧
      snapshot.drop (i + 1) = rest := by
  unfold memchr at h
  split_ifs at h with hlt
  obtain ⟨line, rest, hdrop, hline⟩ := List.eq_append_cons_of_mem (List.idxOf_lt_length_iff.mp hlt)
  have hidx : (snapshot.drop pos).idxOf c = line.length := by
    rw [hdrop, List.idxOf_append_of_notMem hline, List.idxOf_cons_self, Nat.add_zero]
  rw [hidx, Option.some_inj] at h
  refine ⟨line, rest, hdrop, hline, h.symm, ?_⟩
  rw [← h, Nat.add_assoc, ← List.drop_drop, hdrop, ← List.singleton_append, ← List.append_assoc,
    List.drop_left' (by simp)]

lemma memchr_none {pos : Nat} {c : UInt8} (h : memchr snapshot pos c = none) : c ∉ snapshot.drop pos := by
  intro hmem
  rw [memchr, if_pos (List.idxOf_lt_length_iff.mpr hmem)] at h
  cases h

lemma nextRecord_spec {pos eol : Nat} (h : nextRecord hexsz snapshot pos = .ok eol) :
    ∃ r : Record hexsz, snapshot.drop pos = r.bytes ++ snapshot.drop eol ∧ eol = pos + r.bytes.length := by
  unfold nextRecord at h
  split at h
  · cases h
  · rename_i first hfirst
    obtain ⟨line, rest, hdrop, hline, rfl, hrest⟩ := memchr_some hfirst
    have hhead : lf ∉ line.take (hexsz + 1) := fun hmem => hline (List.mem_of_mem_take hmem)
    have hname : lf ∉ line.drop (hexsz + 1) := fun hmem => hline (List.mem_of_mem_drop hmem)
    split_ifs at h with hshort hpeeled
    · have hlen : (line.take (hexsz + 1)).length = hexsz + 1 := by
        rw [List.length_take]
        omega
      split at h
      · cases h
      · rename_i second hsecond
        obtain ⟨peeled, rest', hdrop', hpeeledLf, rfl, hrest'⟩ := memchr_some hsecond
        obtain rfl := Except.ok.inj h
        obtain ⟨tail, rfl⟩ : ∃ tail, peeled = caret :: tail := by
          have hget := hpeeled.2
          rw [← List.head?_drop, hdrop'] at hget
          cases peeled with
          | nil => exact absurd (Option.some.inj hget) (by decide)
          | cons d tail => exact ⟨tail, by rw [Option.some.inj hget]⟩
        rw [List.mem_cons, not_or] at hpeeledLf
        refine ⟨⟨line.take (hexsz + 1), line.drop (hexsz + 1), some tail, hlen, hhead, hname, ?_⟩, ?_, ?_⟩
        · rintro l ⟨rfl⟩
          exact hpeeledLf.2
        · rw [hdrop, ← hrest, hdrop', hrest', Record.bytes, ← List.append_assoc, List.take_append_drop]
          simp [Record.peeledLine]
        · simp [Record.bytes, Record.peeledLine]
          omega
    · have hlen : (line.take (hexsz + 1)).length = hexsz + 1 := by
        rw [List.length_take]
        omega
      obtain rfl := Except.ok.inj h
      refine ⟨⟨line.take (hexsz + 1), line.drop (hexsz + 1), none, hlen, hhead, hname, by simp⟩, ?_, ?_⟩
      · rw [hdrop, hrest, Record.bytes, ← List.append_assoc, List.take_append_drop]
        simp [Record.peeledLine]
      · simp [Record.bytes, Record.peeledLine]
        omega

def Describes (snapshot : List UInt8) (e : SnapshotRecord) (r : Record hexsz) : Prop :=
  (snapshot.drop e.start).take e.len = r.bytes ∧ ∃ rest, snapshot.drop (e.start + hexsz + 1) = r.name ++ lf :: rest

lemma describes_of_drop {pos : Nat} {r : Record hexsz} {rest : List UInt8} (h : snapshot.drop pos = r.bytes ++ rest) :
    Describes snapshot ⟨pos, r.bytes.length⟩ r := by
  refine ⟨by rw [h, List.take_left], r.peeledLine ++ rest, ?_⟩
  rw [Nat.add_assoc, ← List.drop_drop, h, Record.bytes, List.append_assoc, ← r.head_length, List.drop_left]
  simp

lemma snapshotRecords_spec {pos : Nat} {spans : List SnapshotRecord} (h : snapshotRecords hexsz snapshot pos = .ok spans) :
    ∃ records : List (Record hexsz), snapshot.drop pos = content records ∧
      List.Forall₂ (Describes snapshot) spans records := by
  induction hn : snapshot.length - pos using Nat.strong_induction_on generalizing pos spans with
  | _ n ih =>
    rw [snapshotRecords] at h
    split_ifs at h with hlt
    · split at h
      · cases h
      · rename_i eol hnext
        have hpos := lt_nextRecord hnext
        obtain ⟨r, hdrop, rfl⟩ := nextRecord_spec hnext
        split at h
        · cases h
        · rename_i more hmore
          obtain rfl := Except.ok.inj h
          obtain ⟨records, hrest, hall⟩ := ih _ (by omega) hmore rfl
          refine ⟨r :: records, by rw [hdrop, hrest, content_cons], .cons ?_ hall⟩
          rw [Nat.add_sub_cancel_left]
          exact describes_of_drop hdrop
    · obtain rfl := Except.ok.inj h
      exact ⟨[], by rw [content_nil, List.drop_eq_nil_iff]; omega, .nil⟩

lemma cmpPackedRefname_spec {name name' : List UInt8} (h : lf ∉ name) (h' : lf ∉ name') (rest rest' : List UInt8) :
    ∃ cmp, cmpPackedRefname (name ++ lf :: rest) (name' ++ lf :: rest') = some cmp ∧ (cmp < 0 ↔ name < name') ∧
      (cmp ≤ 0 ↔ name ≤ name') := by
  induction name generalizing name' with
  | nil =>
    cases name' with
    | nil => exact ⟨0, by simp [cmpPackedRefname], by simp, by simp⟩
    | cons d name' =>
      rw [List.mem_cons, not_or] at h'
      exact ⟨-1, by simp [cmpPackedRefname, Ne.symm h'.1], by simp, by simp [(List.nil_lt_cons d name').le]⟩
  | cons c name ih =>
    rw [List.mem_cons, not_or] at h
    cases name' with
    | nil => exact ⟨1, by simp [cmpPackedRefname, Ne.symm h.1], by simp, by simp⟩
    | cons d name' =>
      rw [List.mem_cons, not_or] at h'
      rw [List.cons_append, List.cons_append, cmpPackedRefname, if_neg (Ne.symm h.1), if_neg (Ne.symm h'.1)]
      by_cases heq : c = d
      · subst heq
        rw [if_neg (by simp)]
        obtain ⟨cmp, hcmp, hlt, hle⟩ := ih h.2 h'.2
        exact ⟨cmp, hcmp, by simp [hlt], by simp [hle, ← not_lt]⟩
      · rw [if_pos heq]
        obtain hlt | hgt := lt_or_gt_of_ne heq
        · exact ⟨-1, by rw [if_pos hlt], by simp [List.cons_lt_cons_iff, hlt],
            by simp [← not_lt, List.cons_lt_cons_iff, lt_asymm hlt, Ne.symm heq]⟩
        · exact ⟨1, by rw [if_neg (lt_asymm hgt)], by simp [List.cons_lt_cons_iff, lt_asymm hgt, heq],
            by simp [← not_lt, List.cons_lt_cons_iff, hgt]⟩

lemma Describes.cmp {e e' : SnapshotRecord} {r r' : Record hexsz} (h : Describes snapshot e r)
    (h' : Describes snapshot e' r') : ∃ cmp, cmpPackedRefRecords hexsz snapshot e e' = some cmp ∧
      (cmp < 0 ↔ r.name < r'.name) ∧ (cmp ≤ 0 ↔ r.name ≤ r'.name) := by
  obtain ⟨rest, hrest⟩ := h.2
  obtain ⟨rest', hrest'⟩ := h'.2
  unfold cmpPackedRefRecords
  rw [hrest, hrest']
  exact cmpPackedRefname_spec r.name_lf r'.name_lf rest rest'

def nameAt (hexsz : Nat) (snapshot : List UInt8) (e : SnapshotRecord) : List UInt8 :=
  (snapshot.drop (e.start + hexsz + 1)).takeWhile (fun c => c ≠ lf)

lemma Describes.nameAt_eq {e : SnapshotRecord} {r : Record hexsz} (h : Describes snapshot e r) :
    nameAt hexsz snapshot e = r.name := by
  obtain ⟨rest, hrest⟩ := h.2
  unfold nameAt
  rw [hrest, List.takeWhile_append_of_pos]
  · simp
  · intro c hc
    simpa using fun heq : c = lf => r.name_lf (heq ▸ hc)

variable {spans : List SnapshotRecord} {records : List (Record hexsz)}

lemma map_nameAt
    (h : List.Forall₂ (Describes snapshot) spans records) :
    spans.map (nameAt hexsz snapshot) = records.map Record.name := by
  induction h with
  | nil => rfl
  | cons hr _ ih => rw [List.map_cons, List.map_cons, hr.nameAt_eq, ih]

lemma copyRecords_spec
    (h : List.Forall₂ (Describes snapshot) spans records) : copyRecords snapshot spans = content records := by
  induction h with
  | nil => rfl
  | cons hr _ ih =>
    rw [content_cons, ← ih, ← hr.1]
    rfl

lemma exists_of_mem_spans
    (h : List.Forall₂ (Describes snapshot) spans records) {e : SnapshotRecord} (he : e ∈ spans) :
    ∃ r : Record hexsz, Describes snapshot e r := by
  induction h with
  | nil => cases he
  | cons hr _ ih =>
    obtain rfl | he := List.mem_cons.mp he
    · exact ⟨_, hr⟩
    · exact ih he

lemma recordsSorted_spec
    (h : List.Forall₂ (Describes snapshot) spans records) :
    ∃ sorted, recordsSorted hexsz snapshot spans = some sorted ∧
      (sorted = true → (records.map Record.name).IsChain (· < ·)) := by
  induction h with
  | nil => exact ⟨true, rfl, fun _ => .nil⟩
  | cons hr hrest ih =>
    cases hrest with
    | nil => exact ⟨true, rfl, fun _ => .singleton _⟩
    | cons hr' hrest =>
      obtain ⟨cmp, hcmp, hlt, -⟩ := hr.cmp hr'
      obtain ⟨sorted, hsorted, hchain⟩ := ih
      rw [recordsSorted, hcmp]
      dsimp only
      split_ifs with hge
      · exact ⟨false, rfl, fun h => by cases h⟩
      · exact ⟨sorted, hsorted, fun h => .cons_cons (hlt.mp (not_le.mp hge)) (hchain h)⟩

lemma mergeSort_spans
    (h : List.Forall₂ (Describes snapshot) spans records) :
    ∃ sorted : List (Record hexsz), sorted.Perm records ∧ (sorted.map Record.name).Pairwise (· ≤ ·) ∧
      copyRecords snapshot (spans.mergeSort (fun e1 e2 =>
        (cmpPackedRefRecords hexsz snapshot e1 e2).any (fun cmp => cmp ≤ 0))) = content sorted := by
  set le : SnapshotRecord → SnapshotRecord → Bool := fun e1 e2 =>
    (cmpPackedRefRecords hexsz snapshot e1 e2).any (fun cmp => cmp ≤ 0) with hle
  have hnames : ∀ a ∈ spans, ∀ b ∈ spans,
      le a b = decide (nameAt hexsz snapshot a ≤ nameAt hexsz snapshot b) := by
    intro a ha b hb
    obtain ⟨r, hr⟩ := exists_of_mem_spans h ha
    obtain ⟨s, hs⟩ := exists_of_mem_spans h hb
    obtain ⟨cmp, hcmp, -, hiff⟩ := hr.cmp hs
    simp only [hle, hcmp, Option.any_some, hr.nameAt_eq, hs.nameAt_eq, hiff]
  obtain ⟨sorted, hall, hperm⟩ := List.perm_comp_forall₂ (List.mergeSort_perm spans le) h
  refine ⟨sorted, hperm, ?_, copyRecords_spec hall⟩
  rw [← map_nameAt hall, List.map_mergeSort (s := fun a b => decide (a ≤ b)) hnames]
  exact List.pairwise_mergeSort' (· ≤ ·) _

lemma nextRecord_terminated {pos : Nat} (h : BufferSafe hexsz snapshot) (hpos : pos < snapshot.length) :
    nextRecord hexsz snapshot pos ≠ .error .unterminated := by
  have hmem : ∀ p, p < snapshot.length → lf ∈ snapshot.drop p := by
    intro p hp
    obtain ⟨front, rfl⟩ := h.terminated (List.ne_nil_of_length_pos (by omega))
    rw [List.length_append, List.length_singleton] at hp
    rw [List.drop_append_of_le_length (by omega)]
    simp
  intro hnext
  unfold nextRecord at hnext
  split at hnext
  · rename_i hnone
    exact memchr_none hnone (hmem pos hpos)
  · split_ifs at hnext with hshort hpeeled
    · cases hnext
    · split at hnext
      · rename_i hnone
        exact memchr_none hnone (hmem _ hpeeled.1)
      · cases hnext

lemma snapshotRecords_error {pos : Nat} {e : SortError} (h : snapshotRecords hexsz snapshot pos = .error e) :
    ∃ p, p < snapshot.length ∧ nextRecord hexsz snapshot p = .error e := by
  induction hn : snapshot.length - pos using Nat.strong_induction_on generalizing pos with
  | _ n ih =>
    rw [snapshotRecords] at h
    split_ifs at h with hlt
    split at h
    · rename_i e' hnext
      exact ⟨pos, hlt, by rw [hnext, Except.error.inj h]⟩
    · rename_i eol hnext
      have := lt_nextRecord hnext
      split at h
      · rename_i e' hmore
        exact ih (snapshot.length - eol) (by omega) (by rw [hmore, Except.error.inj h]) rfl
      · cases h

lemma nextRecord_overread (pos : Nat) : nextRecord hexsz snapshot pos ≠ .error .overread := by
  unfold nextRecord
  split
  · simp
  · split_ifs
    · simp
    · split <;> simp
    · simp

lemma sortSnapshot_spec (hexsz : Nat) (snapshot : List UInt8) :
    sortSnapshot hexsz snapshot ≠ .error .overread ∧ ∀ sorted, sortSnapshot hexsz snapshot = .ok sorted →
      ∃ records records' : List (Record hexsz), snapshot = content records ∧ records'.Perm records ∧
        (records'.map Record.name).Pairwise (· ≤ ·) ∧ sorted = content records' := by
  unfold sortSnapshot
  cases hspans : snapshotRecords hexsz snapshot 0 with
  | error e =>
    refine ⟨fun h => ?_, fun sorted h => ?_⟩
    · obtain rfl := Except.error.inj h
      obtain ⟨p, -, hnext⟩ := snapshotRecords_error hspans
      exact nextRecord_overread p hnext
    · cases h
  | ok spans =>
    obtain ⟨records, hdrop, hall⟩ := snapshotRecords_spec hspans
    rw [List.drop_zero] at hdrop
    obtain ⟨inOrder, hsorted, hchain⟩ := recordsSorted_spec hall
    dsimp only
    rw [hsorted]
    cases inOrder with
    | true =>
      refine ⟨(fun h => nomatch h), fun sorted h => ⟨records, records, hdrop, .refl _, ?_, ?_⟩⟩
      · exact (hchain rfl).pairwise.imp le_of_lt
      · rw [← Except.ok.inj h, hdrop]
    | false =>
      have hread : ¬∃ e1 ∈ spans, ∃ e2 ∈ spans, cmpPackedRefRecords hexsz snapshot e1 e2 = none := by
        rintro ⟨e1, h1, e2, h2, hnone⟩
        obtain ⟨r, hr⟩ := exists_of_mem_spans hall h1
        obtain ⟨s, hs⟩ := exists_of_mem_spans hall h2
        obtain ⟨cmp, hcmp, -⟩ := hr.cmp hs
        rw [hcmp] at hnone
        cases hnone
      dsimp only
      rw [if_neg hread]
      obtain ⟨records', hperm, hnames, hcopy⟩ := mergeSort_spans hall
      exact ⟨(fun h => nomatch h), fun sorted h => ⟨records, records', hdrop, hperm, hnames,
        by rw [← Except.ok.inj h, hcopy]⟩⟩

lemma verified_safe (h : verifyBufferSafe hexsz snapshot = some true) :
    (∀ refname mustexist start, (findReferenceLocation1 hexsz snapshot refname mustexist start).isSome) ∧
      sortSnapshot hexsz snapshot ≠ .error .unterminated := by
  obtain ⟨safe, hverify, hspec⟩ := verifyBufferSafe_spec hexsz snapshot
  have hsafe := hspec (Option.some.inj (hverify.symm.trans h))
  refine ⟨fun refname mustexist start => ?_, fun hsort => ?_⟩
  · obtain ⟨⟨pos, found⟩, hloop⟩ := Option.isSome_iff_exists.mp
      (findReferenceLoop_isSome hsafe refname start (Nat.zero_le _) le_rfl (.inr (.inl rfl)))
    unfold findReferenceLocation1
    rw [hloop]
    cases found <;> rfl
  · unfold sortSnapshot at hsort
    cases hspans : snapshotRecords hexsz snapshot 0 with
    | error e =>
      rw [hspans] at hsort
      obtain rfl := Except.error.inj hsort
      obtain ⟨p, hp, hnext⟩ := snapshotRecords_error hspans
      exact nextRecord_terminated hsafe hp hnext
    | ok spans =>
      rw [hspans] at hsort
      dsimp only at hsort
      split at hsort
      · cases hsort
      · cases hsort
      · split_ifs at hsort
        cases hsort

end GitCore.Refs
