import GitCore.Refs.PackedWrite

/-!
# What the packed refs are after a transaction

The walk writes the merge of the refs it has not passed with the updates it has not done. A
rejection takes the update at the same index of the queue, so the walk goes on as it should
only where this is the update it looked at; elsewhere it rejects another one or never ends.
-/

namespace GitCore.Refs

open Overlay

def mergeRefs : List PackedRef → List RefUpdate → List PackedRef
  | refs, [] => refs
  | [], update :: updates => (newEntry update).toList ++ mergeRefs [] updates
  | ref :: refs, update :: updates =>
    if ref.name < update.refname then ref :: mergeRefs refs (update :: updates)
    else if ref.name = update.refname then
      (if update.haveNew then (newEntry update).toList else [ref]) ++ mergeRefs refs updates
    else (newEntry update).toList ++ mergeRefs (ref :: refs) updates
termination_by refs updates => refs.length + updates.length

@[simp]
lemma mergeRefs_nil (refs : List PackedRef) : mergeRefs refs [] = refs := by
  rw [mergeRefs]

lemma newEntry_eq_some {update : RefUpdate} {ref : PackedRef} (h : newEntry update = some ref) :
    ref.name = update.refname ∧ update.haveNew = true := by
  unfold newEntry at h
  split at h
  · cases h
  rename_i hnull
  obtain rfl := Option.some.inj h
  refine ⟨rfl, ?_⟩
  by_contra hnew
  exact hnull (update.newOid_isNull (by simpa using hnew))

variable {refs : List PackedRef} {updates : List RefUpdate}

lemma mem_mergeRefs (hrefs : Sorted PackedRef.name refs)
    (hupdates : Sorted RefUpdate.refname updates) {ref : PackedRef} :
    ref ∈ mergeRefs refs updates ↔ (∃ update ∈ updates, newEntry update = some ref) ∨
      (ref ∈ refs ∧ ∀ update ∈ updates, update.refname = ref.name → update.haveNew = false) := by
  induction refs, updates using mergeRefs.induct with
  | case1 refs => simp
  | case2 update updates ih =>
    have ih := ih hrefs (List.pairwise_cons.mp hupdates).2
    simp [mergeRefs, ih]
  | case3 old refs update updates hlt ih =>
    have ih := ih (List.pairwise_cons.mp hrefs).2 hupdates
    have hold : ∀ u ∈ update :: updates, u.refname ≠ old.name := by
      intro u hu
      have hle : update.refname ≤ u.refname := by
        cases hu with
        | head => exact le_rfl
        | tail _ hu => exact ((List.pairwise_cons.mp hupdates).1 u hu).le
      exact (hlt.trans_le hle).ne'
    rw [mergeRefs, if_pos hlt, List.mem_cons, ih, List.mem_cons]
    constructor
    · rintro (rfl | hnew | ⟨href, hnone⟩)
      · exact .inr ⟨.inl rfl, fun u hu heq => absurd heq (hold u hu)⟩
      · exact .inl hnew
      · exact .inr ⟨.inr href, hnone⟩
    · rintro (hnew | ⟨rfl | href, hnone⟩)
      · exact .inr (.inl hnew)
      · exact .inl rfl
      · exact .inr (.inr ⟨href, hnone⟩)
  | case4 old refs update updates hlt heq ih =>
    obtain ⟨hold, hrefs⟩ := List.pairwise_cons.mp hrefs
    obtain ⟨hupd, hupdates⟩ := List.pairwise_cons.mp hupdates
    have ih := ih hrefs hupdates
    have hlater : ∀ r ∈ refs, update.refname ≠ r.name := by
      intro r hr
      rw [← heq]
      exact (hold r hr).ne
    have holdname : ∀ u ∈ updates, u.refname ≠ old.name := by
      intro u hu
      rw [heq]
      exact (hupd u hu).ne'
    rw [mergeRefs, if_neg hlt, if_pos heq, List.mem_append, ih]
    cases hnew : update.haveNew with
    | true =>
      simp only [if_true, Option.mem_toList, List.mem_cons, exists_eq_or_imp, forall_eq_or_imp]
      constructor
      · rintro (h | h | ⟨href, hnone⟩)
        · exact .inl (.inl h)
        · exact .inl (.inr h)
        · exact .inr ⟨.inr href, fun h => absurd h (hlater ref href), hnone⟩
      · rintro ((h | h) | ⟨rfl | href, hupdate, hnone⟩)
        · exact .inl h
        · exact .inr (.inl h)
        · exact absurd (hupdate heq.symm) (by simp [hnew])
        · exact .inr (.inr ⟨href, hnone⟩)
    | false =>
      have hnone : newEntry update ≠ some ref := by
        intro h
        simpa [hnew] using (newEntry_eq_some h).2
      simp only [Bool.false_eq_true, if_false, List.mem_cons, List.not_mem_nil, or_false,
        exists_eq_or_imp, forall_eq_or_imp]
      constructor
      · rintro (rfl | h | ⟨href, hupdates⟩)
        · exact .inr ⟨.inl rfl, fun _ => hnew, fun u hu h => absurd h (holdname u hu)⟩
        · exact .inl (.inr h)
        · exact .inr ⟨.inr href, fun _ => hnew, hupdates⟩
      · rintro ((h | h) | ⟨rfl | href, -, hupdates⟩)
        · exact absurd h hnone
        · exact .inr (.inl h)
        · exact .inl rfl
        · exact .inr (.inr ⟨href, hupdates⟩)
  | case5 old refs update updates hlt hne ih =>
    have ih := ih hrefs (List.pairwise_cons.mp hupdates).2
    have hgt : update.refname < old.name := lt_of_le_of_ne (not_lt.mp hlt) (Ne.symm hne)
    have hlater : ∀ r ∈ old :: refs, update.refname ≠ r.name := by
      intro r hr
      cases hr with
      | head => exact hgt.ne
      | tail _ hr => exact (hgt.trans ((List.pairwise_cons.mp hrefs).1 r hr)).ne
    rw [mergeRefs, if_neg hlt, if_neg hne, List.mem_append, ih]
    simp only [Option.mem_toList, List.mem_cons, exists_eq_or_imp, forall_eq_or_imp]
    constructor
    · rintro (h | h | ⟨href, hnone⟩)
      · exact .inl (.inl h)
      · exact .inl (.inr h)
      · exact .inr ⟨href, fun h => absurd h (hlater ref (List.mem_cons.mpr href)), hnone⟩
    · rintro ((h | h) | ⟨href, -, hnone⟩)
      · exact .inl h
      · exact .inr (.inl h)
      · exact .inr (.inr ⟨href, hnone⟩)

lemma sorted_mergeRefs (hrefs : Sorted PackedRef.name refs)
    (hupdates : Sorted RefUpdate.refname updates) : Sorted PackedRef.name (mergeRefs refs updates) := by
  induction refs, updates using mergeRefs.induct with
  | case1 refs => simpa using hrefs
  | case2 update updates ih =>
    obtain ⟨hupd, hupdates⟩ := List.pairwise_cons.mp hupdates
    rw [mergeRefs]
    refine List.pairwise_append.mpr ⟨?_, ih hrefs hupdates, ?_⟩
    · cases newEntry update <;> simp
    intro new hnew ref href
    have hname := (newEntry_eq_some (Option.mem_toList.mp hnew)).1
    obtain ⟨u, hu, hentry⟩ | ⟨hmem, -⟩ := (mem_mergeRefs hrefs hupdates).mp href
    · rw [hname, (newEntry_eq_some hentry).1]
      exact hupd u hu
    · cases hmem
  | case3 old refs update updates hlt ih =>
    obtain ⟨hold, hrefs⟩ := List.pairwise_cons.mp hrefs
    rw [mergeRefs, if_pos hlt]
    refine List.pairwise_cons.mpr ⟨?_, ih hrefs hupdates⟩
    intro ref href
    obtain ⟨u, hu, hentry⟩ | ⟨hmem, -⟩ := (mem_mergeRefs hrefs hupdates).mp href
    · rw [(newEntry_eq_some hentry).1]
      cases hu with
      | head => exact hlt
      | tail _ hu => exact hlt.trans ((List.pairwise_cons.mp hupdates).1 u hu)
    · exact hold ref hmem
  | case4 old refs update updates hlt heq ih =>
    obtain ⟨hold, hrefs⟩ := List.pairwise_cons.mp hrefs
    obtain ⟨hupd, hupdates⟩ := List.pairwise_cons.mp hupdates
    rw [mergeRefs, if_neg hlt, if_pos heq]
    refine List.pairwise_append.mpr ⟨?_, ih hrefs hupdates, ?_⟩
    · cases update.haveNew
      · simp
      · cases newEntry update <;> simp
    intro new hnew ref href
    have hname : new.name = update.refname := by
      cases h : update.haveNew with
      | true => exact (newEntry_eq_some (Option.mem_toList.mp (by simpa [h] using hnew))).1
      | false =>
        have hnew : new = old := by simpa [h] using hnew
        rw [hnew, heq]
    obtain ⟨u, hu, hentry⟩ | ⟨hmem, -⟩ := (mem_mergeRefs hrefs hupdates).mp href
    · rw [hname, (newEntry_eq_some hentry).1]
      exact hupd u hu
    · rw [hname, ← heq]
      exact hold ref hmem
  | case5 old refs update updates hlt hne ih =>
    obtain ⟨hupd, hupdates⟩ := List.pairwise_cons.mp hupdates
    have hgt : update.refname < old.name := lt_of_le_of_ne (not_lt.mp hlt) (Ne.symm hne)
    rw [mergeRefs, if_neg hlt, if_neg hne]
    refine List.pairwise_append.mpr ⟨?_, ih hrefs hupdates, ?_⟩
    · cases newEntry update <;> simp
    intro new hnew ref href
    have hname := (newEntry_eq_some (Option.mem_toList.mp hnew)).1
    obtain ⟨u, hu, hentry⟩ | ⟨hmem, -⟩ := (mem_mergeRefs hrefs hupdates).mp href
    · rw [hname, (newEntry_eq_some hentry).1]
      exact hupd u hu
    · rw [hname]
      cases hmem with
      | head => exact hgt
      | tail _ hmem => exact hgt.trans ((List.pairwise_cons.mp hrefs).1 ref hmem)

lemma find_mergeRefs (hrefs : Sorted PackedRef.name refs)
    (hupdates : Sorted RefUpdate.refname updates) (name : RefName) :
    find PackedRef.name (mergeRefs refs updates) name = updatedRef refs updates name := by
  apply Option.ext
  intro ref
  rw [find_eq_some (sorted_mergeRefs hrefs hupdates), mem_mergeRefs hrefs hupdates, updatedRef]
  cases hfind : find RefUpdate.refname updates name with
  | none =>
    have hnone := find_eq_none.mp hfind
    dsimp only
    rw [find_eq_some hrefs]
    constructor
    · rintro ⟨⟨u, hu, hentry⟩ | ⟨href, -⟩, rfl⟩
      · exact absurd (newEntry_eq_some hentry).1.symm (hnone u hu)
      · exact ⟨href, rfl⟩
    · rintro ⟨href, rfl⟩
      exact ⟨.inr ⟨href, fun u hu h => absurd h (hnone u hu)⟩, rfl⟩
  | some update =>
    obtain ⟨hmem, rfl⟩ := (find_eq_some hupdates).mp hfind
    dsimp only
    cases hnew : update.haveNew with
    | true =>
      rw [if_pos rfl]
      constructor
      · rintro ⟨⟨u, hu, hentry⟩ | ⟨-, hnone⟩, hname⟩
        · have heq := hupdates.eq_of_key_eq hu hmem ((newEntry_eq_some hentry).1.symm.trans hname)
          rwa [← heq]
        · exact absurd (hnone update hmem hname.symm) (by simp [hnew])
      · intro hentry
        exact ⟨.inl ⟨update, hmem, hentry⟩, (newEntry_eq_some hentry).1⟩
    | false =>
      rw [if_neg Bool.false_ne_true, find_eq_some hrefs]
      constructor
      · rintro ⟨⟨u, hu, hentry⟩ | ⟨href, -⟩, hname⟩
        · have heq := hupdates.eq_of_key_eq hu hmem ((newEntry_eq_some hentry).1.symm.trans hname)
          rw [heq] at hentry
          simpa [hnew] using (newEntry_eq_some hentry).2
        · exact ⟨href, hname⟩
      · rintro ⟨href, hname⟩
        refine ⟨.inr ⟨href, fun u hu h => ?_⟩, hname⟩
        rwa [hupdates.eq_of_key_eq hu hmem (h.trans hname)]

lemma writesMerge_mergeRefs
    (hrefs : Sorted PackedRef.name refs) (hupdates : Sorted RefUpdate.refname updates) :
    WritesMerge refs updates (packedRefsHeader ++ (mergeRefs refs updates).flatMap writePackedEntry) :=
  ⟨mergeRefs refs updates, sorted_mergeRefs hrefs hupdates, find_mergeRefs hrefs hupdates, rfl⟩

lemma oldValueError_eq_none {update : RefUpdate} :
    oldValueError update (oldRef refs update) = none ↔ OldHolds refs update := by
  unfold OldHolds
  cases oldRef refs update with
  | none => cases h : update.haveOld <;> cases hnull : update.oldOid.isNull <;> simp [oldValueError, h, hnull]
  | some ref =>
    cases h : update.haveOld with
    | false => simp [oldValueError, h]
    | true =>
      cases hnull : update.oldOid.isNull with
      | true => simp [oldValueError, h, hnull]
      | false => simp [oldValueError, h, hnull]

lemma oldRef_cons_of_ne {ref : PackedRef} {refs : List PackedRef} {update : RefUpdate}
    (h : ref.name ≠ update.refname) : oldRef (ref :: refs) update = oldRef refs update := by
  simp [oldRef, find, h]

lemma oldRef_cons_of_eq {ref : PackedRef} {refs : List PackedRef} {update : RefUpdate}
    (h : ref.name = update.refname) : oldRef (ref :: refs) update = some ref := by
  simp [oldRef, find, h]

lemma oldRef_cons_of_gt {ref : PackedRef} {refs : List PackedRef} {update : RefUpdate}
    (hrefs : Sorted PackedRef.name (ref :: refs)) (h : update.refname < ref.name) :
    oldRef (ref :: refs) update = none := by
  refine find_eq_none.mpr fun r hr => ?_
  cases hr with
  | head => exact h.ne'
  | tail _ hr => exact (h.trans ((List.pairwise_cons.mp hrefs).1 r hr)).ne'

def AtUpdate (iter : List PackedRef) (update : RefUpdate) : Prop :=
  ∀ ref ∈ iter.head?, ¬ ref.name < update.refname

variable {s : WriteState}

lemma writeStep_pass {update : RefUpdate} {ref : PackedRef} {iter : List PackedRef}
    (hget : s.transaction.refnames[s.i]? = some update) (hiter : s.iter = ref :: iter)
    (hlt : ref.name < update.refname) : writeStep s = .next (passThrough s ref iter) := by
  simp [writeStep, hget, hiter, hlt]

lemma writeStep_fail {update : RefUpdate} {ret : RefTransactionError} {err : Strbuf}
    (hget : s.transaction.refnames[s.i]? = some update) (hsorted : Sorted PackedRef.name s.iter)
    (hat : AtUpdate s.iter update) (h : oldValueError update (oldRef s.iter update) = some (ret, err)) :
    writeStep s = rejectUpdate s ret err := by
  cases hiter : s.iter with
  | nil =>
    rw [hiter] at h
    simp [writeStep, hget, hiter, stepMissing, show oldValueError update none = _ from h]
  | cons ref iter =>
    have hlt : ¬ ref.name < update.refname := hat ref (by simp [hiter])
    rw [hiter] at h hsorted
    by_cases heq : ref.name = update.refname
    · rw [oldRef_cons_of_eq heq] at h
      simp [writeStep, hget, hiter, heq, stepPresent, h]
    · rw [oldRef_cons_of_gt hsorted (lt_of_le_of_ne (not_lt.mp hlt) (Ne.symm heq))] at h
      simp [writeStep, hget, hiter, hlt, heq, stepMissing, h]

lemma writeUpdate_eq (s : WriteState) (update : RefUpdate) :
    writeUpdate s update =
      { s with i := s.i + 1, out := s.out ++ (newEntry update).toList.flatMap writePackedEntry } := by
  unfold writeUpdate
  cases newEntry update <;> simp

lemma writeStep_done {update : RefUpdate} (updates : List RefUpdate)
    (hget : s.transaction.refnames[s.i]? = some update) (hsorted : Sorted PackedRef.name s.iter)
    (hat : AtUpdate s.iter update) (h : oldValueError update (oldRef s.iter update) = none) :
    ∃ iter written, writeStep s =
        .next { s with iter := iter, i := s.i + 1, out := s.out ++ written.flatMap writePackedEntry } ∧
      (iter = s.iter ∨ ∃ ref, s.iter = ref :: iter ∧ ref.name = update.refname) ∧
      mergeRefs s.iter (update :: updates) = written ++ mergeRefs iter updates := by
  cases hiter : s.iter with
  | nil =>
    rw [hiter] at h
    refine ⟨[], (newEntry update).toList, ?_, .inl rfl, by rw [mergeRefs]⟩
    simp [writeStep, hget, hiter, stepMissing, show oldValueError update none = _ from h, writeUpdate_eq]
  | cons ref iter =>
    have hlt : ¬ ref.name < update.refname := hat ref (by simp [hiter])
    rw [hiter] at h hsorted
    by_cases heq : ref.name = update.refname
    · rw [oldRef_cons_of_eq heq] at h
      refine ⟨iter, if update.haveNew then (newEntry update).toList else [ref], ?_, .inr ⟨ref, rfl, heq⟩,
        by rw [mergeRefs, if_neg hlt, if_pos heq]⟩
      cases hnew : update.haveNew with
      | true => simp [writeStep, hget, hiter, heq, stepPresent, h, hnew, writeUpdate_eq]
      | false => simp [writeStep, hget, hiter, heq, stepPresent, h, hnew, passThrough]
    · rw [oldRef_cons_of_gt hsorted (lt_of_le_of_ne (not_lt.mp hlt) (Ne.symm heq))] at h
      refine ⟨ref :: iter, (newEntry update).toList, ?_, .inl rfl, by rw [mergeRefs, if_neg hlt, if_neg heq]⟩
      simp [writeStep, hget, hiter, hlt, heq, stepMissing, h, writeUpdate_eq]

structure WriteAt (refs : List PackedRef) (s : WriteState) (front post : List RefUpdate) : Prop where
  refnames : s.transaction.refnames = front ++ post
  i : s.i = front.length
  iter_sorted : Sorted PackedRef.name s.iter
  sorted : Sorted RefUpdate.refname (front ++ post)
  old : ∀ update ∈ post, oldRef s.iter update = oldRef refs update
  front_holds : ∀ update ∈ front, OldHolds refs update

lemma WriteAt.getElem? {front post : List RefUpdate}
    (h : WriteAt refs s front post) : s.transaction.refnames[s.i]? = post.head? := by
  rw [h.refnames, h.i]
  cases post <;> simp

lemma WriteAt.post_sorted {front post : List RefUpdate}
    (h : WriteAt refs s front post) : Sorted RefUpdate.refname post :=
  (List.pairwise_append.mp h.sorted).2.1

variable {iter : List PackedRef}

lemma WriteAt.pass {s : WriteState} {front post : List RefUpdate} {ref : PackedRef}
    (h : WriteAt refs s front post) (hiter : s.iter = ref :: iter)
    (hlt : ∀ update ∈ post, ref.name < update.refname) :
    WriteAt refs (passThrough s ref iter) front post where
  refnames := h.refnames
  i := h.i
  iter_sorted := (List.pairwise_cons.mp (hiter ▸ h.iter_sorted)).2
  sorted := h.sorted
  old update hu := by
    rw [← h.old update hu, hiter, oldRef_cons_of_ne (hlt update hu).ne]
    rfl
  front_holds := h.front_holds

lemma WriteAt.done {s : WriteState} {front post : List RefUpdate}
    {update : RefUpdate} (h : WriteAt refs s front (update :: post)) (out : Strbuf)
    (hiter : iter = s.iter ∨ ∃ ref, s.iter = ref :: iter ∧ ref.name = update.refname)
    (hold : OldHolds refs update) :
    WriteAt refs { s with iter := iter, i := s.i + 1, out := out } (front ++ [update]) post where
  refnames := by simp [h.refnames]
  i := by simp [h.i]
  iter_sorted := by
    obtain rfl | ⟨ref, href, -⟩ := hiter
    · exact h.iter_sorted
    · exact (List.pairwise_cons.mp (href ▸ h.iter_sorted)).2
  sorted := by simpa using h.sorted
  old later hlater := by
    rw [← h.old later (List.mem_cons_of_mem _ hlater)]
    obtain rfl | ⟨ref, href, hname⟩ := hiter
    · rfl
    · have hlt : update.refname < later.refname := (List.pairwise_cons.mp h.post_sorted).1 later hlater
      rw [href, oldRef_cons_of_ne (hname.trans_ne hlt.ne)]
  front_holds u hu := by
    obtain hu | hu := List.mem_append.mp hu
    · exact h.front_holds u hu
    · rwa [List.mem_singleton.mp hu]

lemma oldValueError_ne_generic {update : RefUpdate} {old : Option PackedRef} {ret : RefTransactionError}
    {err : Strbuf} (h : oldValueError update old = some (ret, err)) : ret ≠ .generic := by
  rintro rfl
  cases old <;> simp only [oldValueError] at h <;> split_ifs at h <;> simp at h

lemma stringListRemove_of_sorted {front post : List RefUpdate} {update : RefUpdate}
    (h : Sorted RefUpdate.refname (front ++ update :: post)) :
    stringListRemove (front ++ update :: post) update.refname = front ++ post := by
  have hfront : ∀ u ∈ front, ¬ (u.refname == update.refname) = true := by
    intro u hu
    have := (List.pairwise_append.mp h).2.2 u hu update (by simp)
    simpa using this.ne
  rw [stringListRemove, List.eraseP_append_right _ hfront, List.eraseP_cons_of_pos (by simp)]

lemma rejectUpdate_yes {ret : RefTransactionError} {err : Strbuf} {queued : RefUpdate}
    (hallow : s.transaction.allowFailure = true) (hret : ret ≠ .generic)
    (hqueue : s.transaction.updates[s.i]? = some queued) :
    rejectUpdate s ret err = .next
      { s with
        transaction :=
          { s.transaction with
            refnames := stringListRemove s.transaction.refnames queued.refname
            rejections := s.transaction.rejections ++ [⟨s.i, ret, s.err ++ err⟩] }
        err := [] } := by
  simp [rejectUpdate, refTransactionMaybeSetRejected, hqueue, hallow, hret]

lemma WriteAt.reject {front post : List RefUpdate}
    {update : RefUpdate} (h : WriteAt refs s front (update :: post)) (rejections : List Rejection) (err : Strbuf) :
    WriteAt refs { s with
      transaction :=
        { s.transaction with
          refnames := stringListRemove s.transaction.refnames update.refname
          rejections := rejections }
      err := err } front post where
  refnames := by
    dsimp only
    rw [h.refnames, stringListRemove_of_sorted h.sorted]
  i := h.i
  iter_sorted := h.iter_sorted
  sorted := h.sorted.sublist (List.Sublist.append_left (List.sublist_cons_self _ _) _)
  old later hlater := h.old later (List.mem_cons_of_mem _ hlater)
  front_holds := h.front_holds

def InPlace (refs : List PackedRef) (queue : List RefUpdate) : Nat → List RefUpdate → Prop
  | _, [] => True
  | i, update :: updates =>
    if OldHolds refs update then InPlace refs queue (i + 1) updates
    else queue[i]? = some update ∧ InPlace refs queue i updates

lemma inPlace_iff {queue updates : List RefUpdate} {i : Nat} :
    InPlace refs queue i updates ↔ ∀ (k : Nat) (update : RefUpdate), updates[k]? = some update →
      ¬ OldHolds refs update →
        queue[i + ((updates.take k).filter (fun u => OldHolds refs u)).length]? = some update := by
  induction updates generalizing i with
  | nil => simp [InPlace]
  | cons first updates ih =>
    by_cases hfirst : OldHolds refs first
    · rw [InPlace, if_pos hfirst, ih]
      constructor
      · intro h k update hk hfail
        cases k with
        | zero =>
          obtain rfl : first = update := by simpa using hk
          exact absurd hfirst hfail
        | succ k =>
          have := h k update (by simpa using hk) hfail
          rw [← this, List.take_succ_cons, List.filter_cons_of_pos (by simpa using hfirst), List.length_cons]
          congr 1
          omega
      · intro h k update hk hfail
        have := h (k + 1) update (by simpa using hk) hfail
        rw [← this, List.take_succ_cons, List.filter_cons_of_pos (by simpa using hfirst), List.length_cons]
        congr 1
        omega
    · rw [InPlace, if_neg hfirst, ih]
      have hskip : ∀ k, ((first :: updates).take (k + 1)).filter (fun u => OldHolds refs u) =
          (updates.take k).filter (fun u => OldHolds refs u) := by
        intro k
        rw [List.take_succ_cons, List.filter_cons_of_neg (by simpa using hfirst)]
      constructor
      · rintro ⟨hplace, h⟩ k update hk hfail
        cases k with
        | zero => simpa using hplace.trans (by simpa using hk)
        | succ k =>
          rw [hskip]
          exact h k update (by simpa using hk) hfail
      · intro h
        refine ⟨by simpa using h 0 first rfl hfirst, fun k update hk hfail => ?_⟩
        have := h (k + 1) update (by simpa using hk) hfail
        rwa [hskip] at this

lemma inPlace_of_holds {queue updates : List RefUpdate} {i : Nat}
    (h : ∀ update ∈ updates, OldHolds refs update) : InPlace refs queue i updates := by
  refine inPlace_iff.mpr fun k update hk hfail => ?_
  exact absurd (h update (List.mem_of_getElem? hk)) hfail

lemma runWrite_succ {s s' : WriteState} (n : Nat) (h : writeStep s = .next s') :
    runWrite (n + 1) s = runWrite n s' := by
  rw [runWrite, h]

lemma WriteAt.pass_or_at {front post : List RefUpdate}
    {update : RefUpdate} (h : WriteAt refs s front (update :: post)) :
    (∃ ref iter, s.iter = ref :: iter ∧ writeStep s = .next (passThrough s ref iter) ∧
      WriteAt refs (passThrough s ref iter) front (update :: post) ∧ ref.name < update.refname) ∨
    AtUpdate s.iter update := by
  have hget : s.transaction.refnames[s.i]? = some update := h.getElem?
  cases hiter : s.iter with
  | nil => exact .inr fun ref href => by simp at href
  | cons ref iter =>
    by_cases hlt : ref.name < update.refname
    · refine .inl ⟨ref, iter, rfl, writeStep_pass hget hiter hlt, h.pass hiter fun u hu => ?_, hlt⟩
      cases hu with
      | head => exact hlt
      | tail _ hu => exact hlt.trans ((List.pairwise_cons.mp h.post_sorted).1 u hu)
    · refine .inr fun r hr => ?_
      obtain rfl : ref = r := by simpa using hr
      exact hlt

lemma WriteAt.oldValueError_eq {front post : List RefUpdate}
    {update : RefUpdate} (h : WriteAt refs s front (update :: post)) :
    oldValueError update (oldRef s.iter update) = none ↔ OldHolds refs update := by
  rw [h.old update (List.mem_cons_self ..)]
  exact oldValueError_eq_none

lemma mergeRefs_pass {ref : PackedRef} {refs : List PackedRef} {updates : List RefUpdate}
    (h : ∀ update ∈ updates, ref.name < update.refname) :
    mergeRefs (ref :: refs) updates = ref :: mergeRefs refs updates := by
  cases updates with
  | nil => simp
  | cons update updates => rw [mergeRefs, if_pos (h update (List.mem_cons_self ..))]

def RejectsFailing (refs : List PackedRef) (queue updates : List RefUpdate) (rejections : List Rejection) : Prop :=
  ∀ idx, idx ∈ rejections.map Rejection.updateIdx ↔
    ∃ update ∈ updates, ¬ OldHolds refs update ∧ queue[idx]? = some update

def WalkEnds (refs : List PackedRef) (s : WriteState) (front post : List RefUpdate) : Prop :=
  ∃ n rejections, runWrite n s = some (.success
      (s.out ++ (mergeRefs s.iter (post.filter (fun u => OldHolds refs u))).flatMap writePackedEntry)
      { s.transaction with
        refnames := front ++ post.filter (fun u => OldHolds refs u)
        rejections := s.transaction.rejections ++ rejections }) ∧
    RejectsFailing refs s.transaction.updates post rejections

lemma walkEnds_nil {front : List RefUpdate}
    (h : WriteAt refs s front []) (hiter : s.iter = []) : WalkEnds refs s front [] := by
  have hget : s.transaction.refnames[s.i]? = none := h.getElem?
  have hrefnames : s.transaction.refnames = front := by simpa using h.refnames
  refine ⟨1, [], ?_, fun idx => by simp⟩
  subst hrefnames
  simp [runWrite, writeStep, hget, hiter]

lemma walkEnds_pass {s : WriteState} {front post : List RefUpdate} {ref : PackedRef}
    (hiter : s.iter = ref :: iter) (hlt : ∀ update ∈ post, ref.name < update.refname)
    (hstep : writeStep s = .next (passThrough s ref iter))
    (h : WalkEnds refs (passThrough s ref iter) front post) : WalkEnds refs s front post := by
  obtain ⟨n, rejections, hrun, hrej⟩ := h
  refine ⟨n + 1, rejections, ?_, hrej⟩
  rw [runWrite_succ n hstep, hrun, hiter, mergeRefs_pass fun u hu => hlt u (List.mem_filter.mp hu).1]
  simp [passThrough]

lemma rejectsFailing_cons_of_holds {queue post : List RefUpdate}
    {rejections : List Rejection} {update : RefUpdate} (hold : OldHolds refs update)
    (h : RejectsFailing refs queue post rejections) : RejectsFailing refs queue (update :: post) rejections := by
  intro idx
  rw [h idx]
  constructor
  · rintro ⟨u, hu, hfail, hidx⟩
    exact ⟨u, List.mem_cons_of_mem _ hu, hfail, hidx⟩
  · rintro ⟨u, hu, hfail, hidx⟩
    cases hu with
    | head => exact absurd hold hfail
    | tail _ hu => exact ⟨u, hu, hfail, hidx⟩

lemma rejectsFailing_cons_of_fails {queue post : List RefUpdate}
    {rejections : List Rejection} {update : RefUpdate} {i : Nat} {ret : RefTransactionError} {err : Strbuf}
    (hnodup : queue.Nodup) (hqueue : queue[i]? = some update) (hfail : ¬ OldHolds refs update)
    (h : RejectsFailing refs queue post rejections) :
    RejectsFailing refs queue (update :: post) (⟨i, ret, err⟩ :: rejections) := by
  intro idx
  rw [List.map_cons, List.mem_cons, h idx]
  constructor
  · rintro (rfl | ⟨u, hu, hu_fails, hidx⟩)
    · exact ⟨update, List.mem_cons_self .., hfail, hqueue⟩
    · exact ⟨u, List.mem_cons_of_mem _ hu, hu_fails, hidx⟩
  · rintro ⟨u, hu, hu_fails, hidx⟩
    cases hu with
    | head =>
      obtain ⟨hlt, -⟩ := List.getElem?_eq_some_iff.mp hqueue
      exact .inl ((List.getElem?_inj hlt hnodup).mp (hqueue.trans hidx.symm)).symm
    | tail _ hu => exact .inr ⟨u, hu, hu_fails, hidx⟩

lemma walkEnds_of_inPlace {front post : List RefUpdate}
    (h : WriteAt refs s front post) (hplace : InPlace refs s.transaction.updates s.i post)
    (hallow : s.transaction.allowFailure = true ∨ ∀ update ∈ post, OldHolds refs update)
    (hnodup : s.transaction.updates.Nodup) : WalkEnds refs s front post := by
  induction hm : s.iter.length + post.length using Nat.strong_induction_on generalizing s front post with
  | _ m ih =>
    cases post with
    | nil =>
      cases hiter : s.iter with
      | nil => exact walkEnds_nil h hiter
      | cons ref iter =>
        have hstep : writeStep s = .next (passThrough s ref iter) := by
          simp [writeStep, h.getElem?, hiter]
        refine walkEnds_pass hiter (by simp) hstep (ih _ ?_ (h.pass hiter (by simp)) hplace hallow hnodup rfl)
        simp [passThrough, ← hm, hiter]
    | cons update post =>
      have hget : s.transaction.refnames[s.i]? = some update := h.getElem?
      obtain ⟨ref, iter, hiter, hstep, hnext, hlt⟩ | hat := h.pass_or_at
      · refine walkEnds_pass hiter (fun u hu => ?_) hstep (ih _ ?_ hnext hplace hallow hnodup rfl)
        · cases hu with
          | head => exact hlt
          | tail _ hu => exact hlt.trans ((List.pairwise_cons.mp h.post_sorted).1 u hu)
        · simp [passThrough, ← hm, hiter]
      by_cases hold : OldHolds refs update
      · have hfilter : (update :: post).filter (fun u => OldHolds refs u) =
            update :: post.filter (fun u => OldHolds refs u) := List.filter_cons_of_pos (by simpa using hold)
        obtain ⟨iter, written, hstep, hiter, hmerge⟩ := writeStep_done
          (post.filter (fun u => OldHolds refs u)) hget h.iter_sorted hat (h.oldValueError_eq.mpr hold)
        have hlen : iter.length ≤ s.iter.length := by
          obtain rfl | ⟨ref, href, -⟩ := hiter
          · exact le_rfl
          · simp [href]
        rw [InPlace, if_pos hold] at hplace
        obtain ⟨n, rejections, hrun, hrej⟩ := ih (iter.length + post.length)
          (by simp only [List.length_cons] at hm; omega)
          (h.done (s.out ++ written.flatMap writePackedEntry) hiter hold) hplace
          (hallow.imp_right fun hall u hu => hall u (List.mem_cons_of_mem _ hu)) hnodup rfl
        refine ⟨n + 1, rejections, ?_, rejectsFailing_cons_of_holds hold hrej⟩
        rw [runWrite_succ n hstep, hrun, hfilter, hmerge]
        simp
      · have hfilter : (update :: post).filter (fun u => OldHolds refs u) =
            post.filter (fun u => OldHolds refs u) := List.filter_cons_of_neg (by simpa using hold)
        rw [InPlace, if_neg hold] at hplace
        have hallow : s.transaction.allowFailure = true := hallow.resolve_right fun hall =>
          hold (hall update (List.mem_cons_self ..))
        obtain ⟨⟨ret, err⟩, herr⟩ := Option.ne_none_iff_exists'.mp (h.oldValueError_eq.not.mpr hold)
        have hstep := (writeStep_fail hget h.iter_sorted hat herr).trans
          (rejectUpdate_yes hallow (oldValueError_ne_generic herr) hplace.1)
        obtain ⟨n, rejections, hrun, hrej⟩ := ih (s.iter.length + post.length)
          (by simp only [List.length_cons] at hm; omega)
          (h.reject (s.transaction.rejections ++ [⟨s.i, ret, s.err ++ err⟩]) []) hplace.2 (.inl hallow) hnodup rfl
        refine ⟨n + 1, ⟨s.i, ret, s.err ++ err⟩ :: rejections, ?_,
          rejectsFailing_cons_of_fails hnodup hplace.1 hold hrej⟩
        rw [runWrite_succ n hstep, hrun, hfilter]
        simp

lemma runWrite_error {front post : List RefUpdate}
    (h : WriteAt refs s front post) (hallow : s.transaction.allowFailure = false)
    (hlength : (front ++ post).length ≤ s.transaction.updates.length)
    (hfail : ∃ update ∈ post, ¬ OldHolds refs update) :
    ∃ n ret err, runWrite n s = some (.error ret err) := by
  induction hm : s.iter.length + post.length using Nat.strong_induction_on generalizing s front post with
  | _ m ih =>
    cases post with
    | nil => simp at hfail
    | cons update post =>
      have hget : s.transaction.refnames[s.i]? = some update := h.getElem?
      obtain ⟨ref, iter, hiter, hstep, hnext, -⟩ | hat := h.pass_or_at
      · obtain ⟨n, ret, err, hrun⟩ := ih _ (by simp [passThrough, ← hm, hiter]) hnext hallow hlength hfail rfl
        exact ⟨n + 1, ret, err, (runWrite_succ n hstep).trans hrun⟩
      by_cases hold : OldHolds refs update
      · obtain ⟨iter, written, hstep, hiter, -⟩ :=
          writeStep_done [] hget h.iter_sorted hat (h.oldValueError_eq.mpr hold)
        have hlen : iter.length ≤ s.iter.length := by
          obtain rfl | ⟨ref, href, -⟩ := hiter
          · exact le_rfl
          · simp [href]
        have hfail : ∃ u ∈ post, ¬ OldHolds refs u := by
          obtain ⟨u, hu, hfail⟩ := hfail
          cases hu with
          | head => exact absurd hold hfail
          | tail _ hu => exact ⟨u, hu, hfail⟩
        obtain ⟨n, ret, err, hrun⟩ := ih (iter.length + post.length)
          (by simp only [List.length_cons] at hm; omega)
          (h.done (s.out ++ written.flatMap writePackedEntry) hiter hold) hallow (by simpa using hlength) hfail rfl
        exact ⟨n + 1, ret, err, (runWrite_succ n hstep).trans hrun⟩
      · obtain ⟨⟨ret, err⟩, herr⟩ := Option.ne_none_iff_exists'.mp (h.oldValueError_eq.not.mpr hold)
        have hi : s.i < s.transaction.updates.length := by
          simp only [List.length_append, List.length_cons] at hlength
          have := h.i
          omega
        refine ⟨1, ret, s.err ++ err, ?_⟩
        simp [runWrite, writeStep_fail hget h.iter_sorted hat herr, rejectUpdate,
          refTransactionMaybeSetRejected, hallow, List.getElem?_eq_getElem hi]

def StepKeeps (s : WriteState) : WriteStep → Prop
  | .next s' => s.transaction.rejections ⊆ s'.transaction.rejections
  | .result (.success _ transaction) => transaction = s.transaction
  | .result _ => True

lemma stepKeeps_rejectUpdate (s : WriteState) (ret : RefTransactionError) (err : Strbuf) :
    StepKeeps s (rejectUpdate s ret err) := by
  unfold rejectUpdate refTransactionMaybeSetRejected
  cases s.transaction.updates[s.i]? with
  | none => trivial
  | some queued =>
    cases s.transaction.allowFailure with
    | false => trivial
    | true =>
      by_cases hret : ret = .generic
      · simp [hret, StepKeeps]
      · simp [hret, StepKeeps]

lemma stepKeeps_stepMissing (s : WriteState) (update : RefUpdate) : StepKeeps s (stepMissing s update) := by
  unfold stepMissing
  cases oldValueError update none with
  | some e => exact stepKeeps_rejectUpdate s e.1 e.2
  | none => simp [StepKeeps, writeUpdate_eq]

lemma stepKeeps_stepPresent (s : WriteState) (update : RefUpdate) (ref : PackedRef) (iter : List PackedRef) :
    StepKeeps s (stepPresent s update ref iter) := by
  unfold stepPresent
  cases oldValueError update (some ref) with
  | some e => exact stepKeeps_rejectUpdate s e.1 e.2
  | none => cases update.haveNew <;> simp [StepKeeps, writeUpdate_eq, passThrough]

lemma stepKeeps_writeStep (s : WriteState) : StepKeeps s (writeStep s) := by
  unfold writeStep
  cases s.transaction.refnames[s.i]? with
  | none => cases s.iter <;> simp [StepKeeps, passThrough]
  | some update =>
    cases s.iter with
    | nil => exact stepKeeps_stepMissing s update
    | cons ref iter =>
      dsimp only
      split_ifs
      · simp [StepKeeps, passThrough]
      · exact stepKeeps_stepPresent s update ref iter
      · exact stepKeeps_stepMissing s update

lemma rejections_subset_of_success {n : Nat} {s : WriteState} {out : Strbuf} {transaction : RefTransaction}
    (h : runWrite n s = some (.success out transaction)) : s.transaction.rejections ⊆ transaction.rejections := by
  induction n generalizing s with
  | zero => cases h
  | succ n ih =>
    have hkeeps := stepKeeps_writeStep s
    rw [runWrite] at h
    cases hstep : writeStep s with
    | next s' =>
      rw [hstep] at h hkeeps
      exact List.Subset.trans hkeeps (ih h)
    | result r =>
      rw [hstep] at h hkeeps
      obtain rfl : r = .success out transaction := by simpa using h
      rw [show transaction = s.transaction from hkeeps]
      exact List.Subset.refl _

lemma runWrite_stuck {front post : List RefUpdate} {update other : RefUpdate}
    {ret : RefTransactionError} {err : Strbuf} (hrefnames : s.transaction.refnames = front ++ update :: post)
    (hi : s.i = front.length) (hsorted : Sorted PackedRef.name s.iter) (hat : AtUpdate s.iter update)
    (herr : oldValueError update (oldRef s.iter update) = some (ret, err))
    (hallow : s.transaction.allowFailure = true) (hqueue : s.transaction.updates[s.i]? = some other)
    (hother : ∀ u ∈ front ++ [update], u.refname ≠ other.refname) (n : Nat) : runWrite n s = none := by
  induction n generalizing s post with
  | zero => rfl
  | succ n ih =>
    have hget : s.transaction.refnames[s.i]? = some update := by simp [hrefnames, hi]
    have hstep := (writeStep_fail hget hsorted hat herr).trans
      (rejectUpdate_yes hallow (oldValueError_ne_generic herr) hqueue)
    have hremove : stringListRemove s.transaction.refnames other.refname =
        front ++ update :: stringListRemove post other.refname := by
      rw [hrefnames, stringListRemove, List.eraseP_append_right _ (by
        intro u hu
        simpa using hother u (List.mem_append_left _ hu)), List.eraseP_cons_of_neg (by
        simpa using hother update (by simp))]
      rfl
    rw [runWrite_succ n hstep]
    exact ih hremove hi hsorted hat herr hallow hqueue

lemma exists_not_failsAt {n : Nat} {s : WriteState} {front post : List RefUpdate}
    (h : WriteAt refs s front post) (hplace : ¬ InPlace refs s.transaction.updates s.i post)
    (hallow : s.transaction.allowFailure = true)
    (hnames : (s.transaction.updates.map RefUpdate.refname).Nodup)
    (hqueued : ∀ update ∈ front ++ post, update ∈ s.transaction.updates)
    {out : Strbuf} {transaction : RefTransaction} (hrun : runWrite n s = some (.success out transaction)) :
    ∃ rejection ∈ transaction.rejections, ¬ FailsAt refs s.transaction rejection.updateIdx := by
  induction n generalizing s front post with
  | zero => cases hrun
  | succ n ih =>
    cases post with
    | nil => exact absurd trivial hplace
    | cons update post =>
      have hget : s.transaction.refnames[s.i]? = some update := h.getElem?
      obtain ⟨ref, iter, hiter, hstep, hnext, -⟩ | hat := h.pass_or_at
      · rw [runWrite_succ n hstep] at hrun
        exact ih (s := passThrough s ref iter) hnext hplace hallow hnames hqueued hrun
      by_cases hold : OldHolds refs update
      · obtain ⟨iter, written, hstep, hiter, -⟩ :=
          writeStep_done [] hget h.iter_sorted hat (h.oldValueError_eq.mpr hold)
        rw [InPlace, if_pos hold] at hplace
        rw [runWrite_succ n hstep] at hrun
        have hrejected := ih (h.done (s.out ++ written.flatMap writePackedEntry) hiter hold) hplace hallow hnames
          (by simpa using hqueued) hrun
        exact hrejected
      obtain ⟨⟨ret, err⟩, herr⟩ := Option.ne_none_iff_exists'.mp (h.oldValueError_eq.not.mpr hold)
      have hfail := writeStep_fail hget h.iter_sorted hat herr
      cases hqueue : s.transaction.updates[s.i]? with
      | none =>
        have hbug : rejectUpdate s ret err = .result .bug := by
          simp [rejectUpdate, refTransactionMaybeSetRejected, hqueue]
        rw [runWrite, hfail, hbug] at hrun
        simp at hrun
      | some other =>
        have hstep := hfail.trans (rejectUpdate_yes hallow (oldValueError_ne_generic herr) hqueue)
        by_cases hsame : other = update
        · subst hsame
          rw [InPlace, if_neg hold] at hplace
          have hplace : ¬ InPlace refs s.transaction.updates s.i post := fun hp => hplace ⟨hqueue, hp⟩
          rw [runWrite_succ n hstep] at hrun
          have hsub := (List.Sublist.append_left (List.sublist_cons_self other post) front).subset
          have hrejected := ih (h.reject _ _) hplace hallow hnames (fun u hu => hqueued u (hsub hu)) hrun
          exact hrejected
        have hname : ∀ u ∈ s.transaction.updates, u ≠ other → u.refname ≠ other.refname := by
          intro u hu hne heq
          exact hne (List.inj_on_of_nodup_map hnames hu (List.mem_of_getElem? hqueue) heq)
        by_cases hotherfails : FailsAt refs s.transaction s.i
        · -- the other update is not before the walk, where all conditions hold
          obtain ⟨queued, hqueued_at, -, hufails⟩ := hotherfails
          obtain rfl : other = queued := Option.some.inj (hqueue.symm.trans hqueued_at)
          have hnone := runWrite_stuck h.refnames h.i h.iter_sorted hat herr hallow hqueue (fun u hu => by
            refine hname u (hqueued u ?_) ?_
            · exact (List.Sublist.append_left (List.singleton_sublist.mpr (List.mem_cons_self ..)) _).subset hu
            · rintro rfl
              obtain hfront | hlast := List.mem_append.mp hu
              · exact hufails (h.front_holds _ hfront)
              · exact hsame (List.mem_singleton.mp hlast)) (n + 1)
          rw [hnone] at hrun
          cases hrun
        · rw [runWrite_succ n hstep] at hrun
          have hsub := rejections_subset_of_success hrun
          exact ⟨⟨s.i, ret, s.err ++ err⟩, hsub (by simp), hotherfails⟩

variable {transaction : RefTransaction}

lemma writeAt_start (hrefs : Sorted PackedRef.name refs)
    (h : Prepared transaction) :
    WriteAt refs ⟨refs, 0, transaction, packedRefsHeader, []⟩ [] transaction.refnames where
  refnames := rfl
  i := rfl
  iter_sorted := hrefs
  sorted := h.refnames_sorted
  old _ _ := rfl
  front_holds update hu := by cases hu

lemma failingInPlace_iff :
    FailingInPlace refs transaction ↔ InPlace refs transaction.updates 0 transaction.refnames := by
  rw [inPlace_iff]
  simp only [Nat.zero_add]
  rfl

lemma Prepared.mem_refnames (h : Prepared transaction) {update : RefUpdate} :
    update ∈ transaction.refnames ↔ update ∈ transaction.updates ∧ update.logOnly = false := by
  rw [h.refnames_perm.mem_iff, List.mem_filter, Bool.not_eq_true']

lemma failsAt_iff (h : Prepared transaction) {idx : Nat} :
    FailsAt refs transaction idx ↔ ∃ update ∈ transaction.refnames, ¬ OldHolds refs update ∧
      transaction.updates[idx]? = some update := by
  constructor
  · rintro ⟨update, hidx, hlog, hfail⟩
    exact ⟨update, h.mem_refnames.mpr ⟨List.mem_of_getElem? hidx, hlog⟩, hfail, hidx⟩
  · rintro ⟨update, hmem, hfail, hidx⟩
    exact ⟨update, hidx, (h.mem_refnames.mp hmem).2, hfail⟩

lemma walkEnds_start (hrefs : Sorted PackedRef.name refs)
    (h : Prepared transaction) (hnames : (transaction.updates.map RefUpdate.refname).Nodup)
    (hplace : FailingInPlace refs transaction)
    (hallow : transaction.allowFailure = true ∨ ∀ update ∈ transaction.refnames, OldHolds refs update) :
    ∃ n out result, writeWithUpdates n refs transaction = some (.success out result) ∧
      WritesMerge refs (transaction.refnames.filter (fun u => OldHolds refs u)) out ∧
      ∀ idx, (∃ rejection ∈ result.rejections, rejection.updateIdx = idx) ↔ FailsAt refs transaction idx := by
  obtain ⟨n, rejections, hrun, hrej⟩ := walkEnds_of_inPlace (writeAt_start hrefs h)
    (failingInPlace_iff.mp hplace) hallow hnames.of_map
  refine ⟨n, _, _, hrun, ?_, fun idx => ?_⟩
  · exact writesMerge_mergeRefs hrefs (h.refnames_sorted.sublist List.filter_sublist)
  · rw [failsAt_iff h, ← hrej idx, List.mem_map]
    simp [h.rejections_nil]

lemma writeCorrect_iff
    (hrefs : Sorted PackedRef.name refs) (h : Prepared transaction)
    (hnames : (transaction.updates.map RefUpdate.refname).Nodup) :
    WriteCorrect refs transaction ↔ transaction.allowFailure = false ∨ FailingInPlace refs transaction := by
  unfold WriteCorrect
  cases hallow : transaction.allowFailure with
  | false =>
    rw [if_neg Bool.false_ne_true]
    refine ⟨fun _ => .inl rfl, fun _ => ?_⟩
    by_cases hall : ∀ update ∈ transaction.refnames, OldHolds refs update
    · obtain ⟨n, out, result, hrun, hmerge, -⟩ := walkEnds_start hrefs h hnames
        (failingInPlace_iff.mpr (inPlace_of_holds hall)) (.inr hall)
      have hfilter : transaction.refnames.filter (fun u => OldHolds refs u) = transaction.refnames :=
        List.filter_eq_self.mpr fun u hu => by simpa using hall u hu
      refine ⟨n, _, hrun, fun _ => ⟨out, result, rfl, by rwa [hfilter] at hmerge⟩, ?_⟩
      rintro ⟨update, hu, hfail⟩
      exact absurd (hall update hu) hfail
    · have hfail : ∃ update ∈ transaction.refnames, ¬ OldHolds refs update := by
        by_contra hno
        exact hall fun u hu => by_contra fun hu_fails => hno ⟨u, hu, hu_fails⟩
      have hlength : ([] ++ transaction.refnames).length ≤ transaction.updates.length := by
        rw [List.nil_append, h.refnames_perm.length_eq]
        exact List.length_filter_le _ _
      obtain ⟨n, ret, err, hrun⟩ := runWrite_error (writeAt_start hrefs h) hallow hlength hfail
      exact ⟨n, _, hrun, fun h => absurd h hall, fun _ => ⟨ret, err, rfl⟩⟩
  | true =>
    rw [if_pos rfl]
    constructor
    · rintro ⟨n, out, result, hrun, -, hrej⟩
      refine .inr (by_contra fun hplace => ?_)
      obtain ⟨rejection, hmem, hnot⟩ := exists_not_failsAt (writeAt_start hrefs h)
        (failingInPlace_iff.not.mp hplace) hallow hnames
        (fun u hu => (h.mem_refnames.mp (by simpa using hu)).1) hrun
      exact hnot ((hrej rejection.updateIdx).mp ⟨rejection, hmem, rfl⟩)
    · intro hplace
      exact walkEnds_start hrefs h hnames (hplace.resolve_left (by simp)) (.inl hallow)

/-- `write_with_updates` after `ref_transaction_prepare`, for updates of distinct refnames
queued in any order. -/
theorem writeWithUpdates_correct_iff {refs : List PackedRef} (hrefs : Sorted PackedRef.name refs)
    {allowFailure : Bool} {updates : List RefUpdate} (hnames : (updates.map RefUpdate.refname).Nodup)
    {transaction : RefTransaction}
    (h : refTransactionPrepare (queueUpdates allowFailure updates) = .ok transaction) :
    WriteCorrect refs transaction ↔ allowFailure = false ∨ FailingInPlace refs transaction := by
  obtain ⟨hprepared, rfl, rfl⟩ := prepared_of_prepare h
  exact writeCorrect_iff hrefs hprepared hnames

def changeUpdate (refname : String) : RefUpdate :=
  newRefUpdate (text refname) true true false false (some ⟨[2]⟩) (some ⟨[1]⟩) zeroOid

def createUpdate (refname : String) : RefUpdate :=
  newRefUpdate (text refname) true true false false (some ⟨[2]⟩) none zeroOid

theorem writeWithUpdates_one_failing :
    WriteCorrect [] ⟨true, [createUpdate "a", changeUpdate "b"], [createUpdate "a", changeUpdate "b"], []⟩ := by
  refine (@writeWithUpdates_correct_iff _ List.Pairwise.nil true [createUpdate "a", changeUpdate "b"]
    (by decide) _ (by decide +kernel)).mpr (.inr fun k update hk hfail => ?_)
  match k with
  | 0 =>
    obtain rfl : createUpdate "a" = update := by simpa using hk
    exact absurd (by decide) hfail
  | 1 =>
    obtain rfl : changeUpdate "b" = update := by simpa using hk
    decide
  | k + 2 => simp at hk

/-- Two updates of missing refs: the first is rejected, and with the second in its place at
index 0 the first one is rejected again and again. -/
theorem writeWithUpdates_two_failing :
    ∃ transaction, refTransactionPrepare (queueUpdates true [changeUpdate "a", changeUpdate "b"]) = .ok transaction ∧
      ¬ WriteCorrect [] transaction := by
  have h : refTransactionPrepare (queueUpdates true [changeUpdate "a", changeUpdate "b"]) =
      .ok ⟨true, [changeUpdate "a", changeUpdate "b"], [changeUpdate "a", changeUpdate "b"], []⟩ := by
    decide +kernel
  refine ⟨_, h, fun hcorrect => ?_⟩
  have hplace := ((writeCorrect_iff List.Pairwise.nil (prepared_of_prepare h).1 (by decide)).mp
    hcorrect).resolve_left (by decide)
  exact absurd (hplace 1 (changeUpdate "b") rfl (by decide)) (by decide)

end GitCore.Refs
