import GitCore.Delta.Replay
import GitCore.Delta.Index

/-!
# The decoder undoes the encoder

`DeltaInv` is what holds between two iterations of the main loop of `create_delta`: the
finished ops replay the target up to the pending literals, the pending literals follow
their count slot, and the match carried over is a real one.
-/

namespace GitCore.Delta

section Encoder

variable (src trg : List UInt8)

def Matches (moff data msize : Nat) : Prop :=
  moff + msize ≤ src.length ∧ data + msize ≤ trg.length ∧
    ∀ k < msize, src.getD (moff + k) 0 = trg.getD (data + k) 0

/-- `n` literals are pending: `out` ends in their count slot and themselves, and what is
before replays the target up to them. -/
def Pending (hdr : List UInt8) (n : Nat) (st : DeltaState) : Prop :=
  ∃ ops slot, Replays src ops (trg.take (st.data - n)) ∧ n ≤ st.data ∧ st.data ≤ trg.length ∧
    st.out = hdr ++ ops ++ if n = 0 then [] else slot :: (trg.drop (st.data - n)).take n

structure DeltaInv (hdr : List UInt8) (st : DeltaState) : Prop where
  pending : ∃ n : Nat, st.inscnt = n ∧ n < 0x7f ∧ Pending src trg hdr n st
  matched : Matches src trg st.moff st.data st.msize

variable {src trg}

lemma matches_zero {moff data : Nat} (hoff : moff ≤ src.length) (hdata : data ≤ trg.length) :
    Matches src trg moff data 0 :=
  ⟨hoff, hdata, by simp⟩

lemma Matches.advance {moff data msize k : Nat} (h : Matches src trg moff data (k + msize)) :
    Matches src trg (moff + k) (data + k) msize := by
  obtain ⟨hsrc, htrg, heq⟩ := h
  refine ⟨by omega, by omega, fun j hj => ?_⟩
  rw [Nat.add_assoc, Nat.add_assoc]
  exact heq (k + j) (by omega)

lemma Matches.back {moff data msize : Nat} (h : Matches src trg (moff + 1) (data + 1) msize)
    (heq : src.getD moff 0 = trg.getD data 0) : Matches src trg moff data (msize + 1) := by
  obtain ⟨hsrc, htrg, hk⟩ := h
  refine ⟨by omega, by omega, fun k hlt => ?_⟩
  cases k with
  | zero => exact heq
  | succ k =>
    have := hk k (by omega)
    rwa [Nat.add_assoc, Nat.add_assoc, Nat.add_comm 1 k] at this

lemma Matches.take_eq {moff data msize : Nat} (h : Matches src trg moff data msize) :
    (src.drop moff).take msize = (trg.drop data).take msize := by
  obtain ⟨hsrc, htrg, hk⟩ := h
  apply List.ext_getElem
  · simp only [List.length_take, List.length_drop]
    omega
  · intro k h1 h2
    simp only [List.length_take, List.length_drop] at h1
    have := hk k (by omega)
    rw [List.getD_eq_getElem _ _ (show moff + k < src.length by omega),
      List.getD_eq_getElem _ _ (show data + k < trg.length by omega)] at this
    simpa using this

lemma matches_matchLength (ref data : Nat) (size : Nat) (hsrc : ref + size ≤ src.length)
    (htrg : data + size ≤ trg.length) :
    Matches src trg ref data (matchLength src trg ref data size) := by
  induction size generalizing ref data with
  | zero => exact matches_zero hsrc htrg
  | succ size ih =>
    rw [matchLength]
    split
    · next heq => exact (ih (ref + 1) (data + 1) (by omega) (by omega)).back heq.symm
    · exact matches_zero (by omega) (by omega)

lemma matches_findMatch (data : Nat) (hdata : data ≤ trg.length) (val : UInt32)
    (entries : List IndexEntry) (msize moff : Nat) (h : Matches src trg moff data msize) :
    let best := findMatch src trg data val entries (msize, moff)
    Matches src trg best.2 data best.1 := by
  induction entries generalizing msize moff with
  | nil => exact h
  | cons entry entries ih =>
    simp only [findMatch]
    split
    · exact ih msize moff h
    split
    · exact h
    · next hlt =>
      have hlen := @matches_matchLength src trg entry.ptr data
        (min (src.length - entry.ptr) (trg.length - data)) (by omega) (by omega)
      split
      · split
        · exact hlen
        · exact ih _ _ hlen
      · exact ih msize moff h

variable {hdr : List UInt8} {index : DeltaIndex}

lemma DeltaInv.searchMatch {st : DeltaState}
    (hidx : index.srcBuf = src) (h : DeltaInv src trg hdr st) :
    DeltaInv src trg hdr (searchMatch index trg st) := by
  obtain ⟨⟨n, hn, hlt, hp⟩, hm⟩ := h
  have hdata : st.data ≤ trg.length := by
    obtain ⟨-, -, -, -, hd, -⟩ := hp
    exact hd
  unfold GitCore.Delta.searchMatch
  split
  · refine ⟨⟨n, hn, hlt, hp⟩, ?_⟩
    rw [hidx]
    exact matches_findMatch st.data hdata _ _ _ _ hm
  · exact ⟨⟨n, hn, hlt, hp⟩, hm⟩

lemma searchMatch_data (index : DeltaIndex) (st : DeltaState) :
    (searchMatch index trg st).data = st.data := by
  unfold searchMatch
  split <;> rfl

lemma ofInt_natCast (n : Nat) : UInt8.ofInt n = UInt8.ofNat n := by
  apply UInt8.toNat_inj.mp
  simp only [UInt8.ofInt, UInt8.toNat_ofNat']
  omega

lemma take_append_run {n data : Nat} (hn : n ≤ data) (xs : List UInt8) :
    xs.take (data - n) ++ (xs.drop (data - n)).take n = xs.take data := by
  rw [← List.take_add, Nat.sub_add_cancel hn]

lemma putInscnt_pending {n : Nat} {st : DeltaState} (hn : st.inscnt = n)
    (hpos : 0 < n) (hle : n ≤ 0x7f) (h : Pending src trg hdr n st) :
    Pending src trg hdr 0 (putInscnt st) := by
  obtain ⟨ops, slot, hops, hdata, htrg, hout⟩ := h
  have hlen : ((trg.drop (st.data - n)).take n).length = n := by
    simp only [List.length_take, List.length_drop]
    omega
  have hidx : ((st.out.length : Int) - st.inscnt - 1).toNat = (hdr ++ ops).length := by
    rw [hout, if_neg (by omega), List.length_append, List.length_cons, hlen, hn]
    omega
  have hcount : UInt8.ofInt st.inscnt = UInt8.ofNat ((trg.drop (st.data - n)).take n).length := by
    rw [hlen, hn, ofInt_natCast]
  have hlit := @replays_literal src ((trg.drop (st.data - n)).take n)
    (List.ne_nil_of_length_pos (by omega)) (by omega)
  refine ⟨ops ++ (UInt8.ofInt st.inscnt :: (trg.drop (st.data - n)).take n), 0, ?_, by omega, htrg, ?_⟩
  · have := hops.append hlit
    rw [take_append_run hdata, ← hcount] at this
    exact this
  · simp only [putInscnt, hidx]
    rw [hout, if_neg (by omega), List.set_append_right _ _ le_rfl]
    simp

lemma matchBack_spec (moff : Nat) {n : Nat} {st : DeltaState}
    (hoff : st.moff = moff) (hn : st.inscnt = n) (hpos : 0 < n) (hp : Pending src trg hdr n st)
    (hm : Matches src trg st.moff st.data st.msize) :
    let st' := matchBack src trg moff st
    Matches src trg st'.moff st'.data st'.msize ∧ st'.data + st'.msize = st.data + st.msize ∧
      st.msize ≤ st'.msize ∧ st'.msize ≤ st.msize + n ∧
      ((∃ n' : Nat, st'.inscnt = n' ∧ 0 < n' ∧ n' ≤ n ∧ Pending src trg hdr n' st') ∨
        st'.inscnt = -1 ∧ Pending src trg hdr 0 st') := by
  induction moff generalizing n st with
  | zero =>
    rw [matchBack]
    exact ⟨hm, rfl, le_rfl, by omega, .inl ⟨n, hn, hpos, le_rfl, hp⟩⟩
  | succ moff ih =>
    rw [matchBack]
    split
    · next heq =>
      obtain ⟨ops, slot, hops, hdata, htrg, hout⟩ := hp
      obtain ⟨d, hd⟩ : ∃ d, st.data = d + 1 := ⟨st.data - 1, by omega⟩
      obtain ⟨m, rfl⟩ : ∃ m, n = m + 1 := ⟨n - 1, by omega⟩
      have hm' : Matches src trg moff d (st.msize + 1) := by
        rw [hoff, hd] at hm
        rw [hd] at heq
        exact hm.back heq
      have hsub : d + 1 - (m + 1) = d - m := by omega
      have hrun : (trg.drop (d - m)).take (m + 1) =
          (trg.drop (d - m)).take m ++ [trg.getD d 0] := by
        rw [List.take_succ_eq_append_getElem (by simp only [List.length_drop]; omega)]
        congr 2
        rw [List.getElem_drop, List.getD_eq_getElem _ _ (by omega)]
        congr 1
        omega
      have hlast : st.out.dropLast = hdr ++ ops ++ slot :: (trg.drop (d - m)).take m := by
        rw [hout, if_neg (by omega), hd, hsub, hrun, ← List.cons_append, ← List.append_assoc,
          List.dropLast_concat]
      have hops' : Replays src ops (trg.take (d - m)) := by
        rwa [hd, hsub] at hops
      dsimp only
      split
      · next hne =>
        have hmpos : 0 < m := by omega
        have hcnt : st.inscnt - 1 = m := by omega
        obtain ⟨h1, h2, h3, h4, h5⟩ := @ih m { st with
            msize := st.msize + 1, moff := moff, data := st.data - 1, out := st.out.dropLast,
            inscnt := st.inscnt - 1 } rfl hcnt hmpos
          ⟨ops, slot, by simpa [hd] using hops', by simp only [hd]; omega, by simp only; omega,
            by simp [hd, hlast, hmpos.ne']⟩
          (by simpa [hd] using hm')
        refine ⟨h1, h2.trans (by simp only [hd]; omega), (Nat.le_succ _).trans h3,
          h4.trans (by simp only; omega), ?_⟩
        rcases h5 with ⟨n', hn', hpos', hle, hp'⟩ | h5
        · exact .inl ⟨n', hn', hpos', by omega, hp'⟩
        · exact .inr h5
      · next hzero =>
        have hm0 : m = 0 := by omega
        subst hm0
        refine ⟨by simpa [hd] using hm', by simp only; omega, by simp only; omega,
          by simp only; omega, .inr ⟨rfl, ops, slot, by simpa [hd] using hops', by simp,
            by simp only; omega, ?_⟩⟩
        simp only [hlast, List.take_zero, List.dropLast_concat, if_true, List.append_nil]
    · exact ⟨hm, rfl, le_rfl, by omega, .inl ⟨n, hn, hpos, le_rfl, hp⟩⟩

lemma DeltaInv.putLiteral {st : DeltaState} (h : DeltaInv src trg hdr st)
    (hlt : st.data < trg.length) :
    DeltaInv src trg hdr (putLiteral trg st) ∧ (putLiteral trg st).data = st.data + 1 := by
  obtain ⟨⟨n, hn, hn7, ops, slot, hops, hdata, htrg, hout⟩, hm⟩ := h
  set st' : DeltaState := { st with
    out := (if st.inscnt = 0 then st.out ++ [0] else st.out) ++ [trg.getD st.data 0],
    data := st.data + 1, inscnt := st.inscnt + 1, msize := 0 } with hst
  have hrun : (trg.drop (st.data - n)).take (n + 1) =
      (trg.drop (st.data - n)).take n ++ [trg.getD st.data 0] := by
    rw [List.take_succ_eq_append_getElem (by simp only [List.length_drop]; omega)]
    congr 2
    rw [List.getElem_drop, List.getD_eq_getElem _ _ hlt]
    congr 1
    omega
  have hp : Pending src trg hdr (n + 1) st' := by
    refine ⟨ops, if n = 0 then 0 else slot, ?_, by simp only [hst]; omega, hlt, ?_⟩
    · rwa [hst, show st.data + 1 - (n + 1) = st.data - n by omega]
    · simp only [hst, hn, show st.data + 1 - (n + 1) = st.data - n by omega, hrun]
      by_cases hn0 : n = 0
      · simp [hn0, hout]
      · simp [hn0, hout]
  have hm' : Matches src trg st'.moff st'.data st'.msize :=
    matches_zero (by have := hm.1; simp only [hst]; omega) hlt
  have hcount : st'.inscnt = (n + 1 : Nat) := by simp [hst, hn]
  have heq : GitCore.Delta.putLiteral trg st = if st'.inscnt = 0x7f then putInscnt st' else st' := rfl
  rw [heq]
  split
  · refine ⟨⟨⟨0, rfl, by decide, putInscnt_pending hcount (by omega) (by omega) hp⟩, hm'⟩, rfl⟩
  · exact ⟨⟨⟨n + 1, hcount, by omega, hp⟩, hm'⟩, rfl⟩

lemma flush_spec {st : DeltaState} (h : DeltaInv src trg hdr st) :
    let st' := if st.inscnt ≠ 0 then putInscnt (matchBack src trg st.moff st) else st
    st'.inscnt = 0 ∧ Pending src trg hdr 0 st' ∧ Matches src trg st'.moff st'.data st'.msize ∧
      st'.data + st'.msize = st.data + st.msize ∧ st.msize ≤ st'.msize ∧
      st'.msize < st.msize + 0x7f := by
  obtain ⟨⟨n, hn, hn7, hp⟩, hm⟩ := h
  dsimp only
  split
  · next hne =>
    obtain ⟨h1, h2, h3, h4, h5⟩ := matchBack_spec st.moff rfl hn (by omega) hp hm
    refine ⟨rfl, ?_, h1, h2, h3, by simp only [putInscnt]; omega⟩
    rcases h5 with ⟨n', hn', hpos', hle, hp'⟩ | ⟨hneg, ops, slot, hops, hle, htrg, hout⟩
    · exact putInscnt_pending hn' hpos' (by omega) hp'
    · refine ⟨ops, slot, hops, hle, htrg, ?_⟩
      simp only [putInscnt, hneg]
      rw [List.set_eq_of_length_le (by omega), hout]
      simp
  · next hzero =>
    have hn0 : n = 0 := by omega
    subst hn0
    exact ⟨hn, hp, hm, rfl, le_rfl, by omega⟩

lemma DeltaInv.putCopy {st : DeltaState} (h : DeltaInv src trg hdr st)
    (hsrc : src.length < 2 ^ 32) (hsize : 4 ≤ st.msize) :
    DeltaInv src trg hdr (putCopy src trg st) ∧ st.data < (putCopy src trg st).data := by
  obtain ⟨hcnt, ⟨ops, slot, hops, -, htrg, hout⟩, hm, hsum, hge, hlt⟩ := flush_spec h
  set st' := if st.inscnt ≠ 0 then putInscnt (matchBack src trg st.moff st) else st with hst
  simp only [Nat.sub_zero, if_true, List.append_nil] at hops hout
  set left := if st'.msize < 0x10000 then 0 else st'.msize - 0x10000 with hleft
  have hmsize : st'.msize - left ≤ 0x10000 ∧ 0 < st'.msize - left ∧ left ≤ st'.msize ∧
      st.data < st'.data + (st'.msize - left) := by
    rw [hleft]
    split <;> omega
  obtain ⟨hle, hpos, hll, hprog⟩ := hmsize
  obtain ⟨hs1, hs2, -⟩ := id hm
  have hcopy := @replays_copy src st'.moff (st'.msize - left)
    (by omega) hpos hle (by omega)
  have hadv : Matches src trg (st'.moff + (st'.msize - left)) (st'.data + (st'.msize - left)) left := by
    apply Matches.advance
    rwa [Nat.sub_add_cancel hll]
  have hhead : Matches src trg st'.moff st'.data (st'.msize - left) :=
    ⟨by omega, by omega, fun k hk => hm.2.2 k (by omega)⟩
  set st'' : DeltaState := { st' with
    out := st'.out ++ copyOp st'.moff (st'.msize - left)
    data := st'.data + (st'.msize - left)
    moff := st'.moff + (st'.msize - left)
    msize := if st'.moff + (st'.msize - left) > 0xffffffff then 0 else left } with hst''
  have hinv : DeltaInv src trg hdr st'' := by
    refine ⟨⟨0, hcnt, by decide, ops ++ copyOp st'.moff (st'.msize - left), 0, ?_, by omega,
      by simp only [hst'']; omega, ?_⟩, ?_⟩
    · have := hops.append hcopy
      rw [hhead.take_eq, ← List.take_add] at this
      exact this
    · simp [hst'', hout]
    · simp only [hst'']
      split
      · exact matches_zero (Nat.le_of_add_right_le hadv.1) (Nat.le_of_add_right_le hadv.2.1)
      · exact hadv
  have heq : GitCore.Delta.putCopy src trg st =
      if st''.msize < 4096 then { st'' with val := rabinWindow trg (st''.data - RABIN_WINDOW) }
      else st'' := rfl
  rw [heq]
  split
  · exact ⟨⟨hinv.pending, hinv.matched⟩, hprog⟩
  · exact ⟨hinv, hprog⟩

lemma DeltaInv.deltaStep {st : DeltaState}
    (hidx : index.srcBuf = src) (hsrc : src.length < 2 ^ 32) (h : DeltaInv src trg hdr st)
    (hlt : st.data < trg.length) :
    DeltaInv src trg hdr (deltaStep index trg st) ∧ st.data < (deltaStep index trg st).data := by
  have hs := @DeltaInv.searchMatch _ _ _ index _ hidx h
  have hd := @searchMatch_data trg index st
  unfold GitCore.Delta.deltaStep
  dsimp only
  split
  · have := hs.putLiteral (by omega)
    exact ⟨this.1, by omega⟩
  · have := hs.putCopy hsrc (by omega)
    rw [hidx]
    exact ⟨this.1, by omega⟩

lemma DeltaInv.withOutsize {st : DeltaState} (h : DeltaInv src trg hdr st)
    (outsize : Nat) : DeltaInv src trg hdr { st with outsize := outsize } :=
  ⟨h.pending, h.matched⟩

lemma growOut_none {maxSize outsize outpos : Nat} (h : growOut maxSize outsize outpos = none) :
    maxSize ≠ 0 ∧ maxSize < outpos := by
  unfold growOut at h
  split at h
  · split at h
    · assumption
    · cases h
  · cases h

lemma deltaLoop_spec (maxSize : Nat)
    (hidx : index.srcBuf = src) (hsrc : src.length < 2 ^ 32) (fuel : Nat) (st : DeltaState)
    (h : DeltaInv src trg hdr st) (hfuel : trg.length - st.data < fuel) :
    ∃ st', deltaLoop index trg maxSize fuel st = some st' ∧ DeltaInv src trg hdr st' ∧
      (st'.data = trg.length ∨ maxSize ≠ 0 ∧ maxSize < st'.out.length) := by
  induction fuel generalizing st with
  | zero => exact absurd hfuel (Nat.not_lt_zero _)
  | succ fuel ih =>
    by_cases hlt : st.data < trg.length
    · obtain ⟨hinv, hprog⟩ := @DeltaInv.deltaStep _ _ _ index _ hidx hsrc h hlt
      generalize hstep : deltaStep index trg st = next at hinv hprog
      cases hgrow : growOut maxSize next.outsize next.out.length with
      | none =>
        have heq : deltaLoop index trg maxSize (fuel + 1) st = some next := by
          simp only [deltaLoop, if_pos hlt, hstep, hgrow]
        exact ⟨next, heq, hinv, .inr (growOut_none hgrow)⟩
      | some outsize =>
        have heq : deltaLoop index trg maxSize (fuel + 1) st =
            deltaLoop index trg maxSize fuel { next with outsize := outsize } := by
          simp only [deltaLoop, if_pos hlt, hstep, hgrow]
        rw [heq]
        exact ih _ (hinv.withOutsize outsize) (by simp only; omega)
    · obtain ⟨n, -, -, -, -, -, -, htrg, -⟩ := h.pending
      refine ⟨st, by rw [deltaLoop, if_neg hlt], h, .inl (by omega)⟩

lemma deltaStart_inv (index : DeltaIndex) (trg : List UInt8) (maxSize : Nat) (hpos : trg ≠ []) :
    DeltaInv index.srcBuf trg
      (putDeltaHdrSize index.srcBuf.length ++ putDeltaHdrSize trg.length)
      (deltaStart index trg maxSize) := by
  have hlen := List.length_pos_iff.mpr hpos
  refine ⟨⟨min RABIN_WINDOW trg.length, rfl, by simp only [RABIN_WINDOW]; omega, [], 0, ?_, le_rfl,
    Nat.min_le_right _ _, ?_⟩, matches_zero (Nat.zero_le _) (Nat.min_le_right _ _)⟩
  · simp only [deltaStart, Nat.sub_self, List.take_zero]
    exact replays_nil _
  · rw [if_neg (by simp only [RABIN_WINDOW]; omega)]
    simp only [deltaStart, Nat.sub_self, List.drop_zero, List.append_nil]
    rw [← List.take_eq_take_min]

end Encoder

lemma length_putInscnt (st : DeltaState) : (putInscnt st).out.length = st.out.length := by
  simp [putInscnt]

lemma createDelta_spec {trg : List UInt8} (maxSize : Nat)
    (hsrc : index.srcBuf.length < 2 ^ 32) (hpos : trg ≠ []) :
    ∃ ops, (createDelta index trg maxSize = none ∧ maxSize ≠ 0) ∨
      (Replays index.srcBuf ops trg ∧ (maxSize ≠ 0 → (putDeltaHdrSize index.srcBuf.length ++
          putDeltaHdrSize trg.length ++ ops).length ≤ maxSize) ∧
        createDelta index trg maxSize = some (putDeltaHdrSize index.srcBuf.length ++
          putDeltaHdrSize trg.length ++ ops)) := by
  obtain ⟨st, hloop, ⟨⟨n, hn, hn7, hp⟩, -⟩, hend⟩ := deltaLoop_spec maxSize rfl hsrc
    (trg.length + 1) _ (deltaStart_inv index trg maxSize hpos) (by omega)
  set st' := if st.inscnt ≠ 0 then putInscnt st else st with hst
  have hlen : st'.out.length = st.out.length := by
    rw [hst]
    split
    · exact length_putInscnt st
    · rfl
  have hdata : st'.data = st.data := by
    rw [hst]
    split <;> rfl
  have hp' : Pending index.srcBuf trg (putDeltaHdrSize index.srcBuf.length ++
      putDeltaHdrSize trg.length) 0 st' := by
    rw [hst]
    split
    · exact putInscnt_pending hn (by omega) (by omega) hp
    · have hn0 : n = 0 := by omega
      rwa [hn0] at hp
  obtain ⟨ops, slot, hops, -, htrg, hout⟩ := hp'
  have heq : createDelta index trg maxSize =
      if maxSize ≠ 0 ∧ st'.out.length > maxSize then none else some st'.out := by
    rw [createDelta, if_neg (by simpa using hpos), hloop]
    rfl
  refine ⟨ops, ?_⟩
  simp only [if_true, List.append_nil, Nat.sub_zero] at hout hops
  by_cases hbig : maxSize ≠ 0 ∧ st'.out.length > maxSize
  · exact .inl ⟨by rw [heq, if_pos hbig], hbig.1⟩
  · have hdone : st.data = trg.length := by
      refine hend.resolve_right fun hlarge => hbig ⟨hlarge.1, by omega⟩
    rw [hdata, hdone, List.take_length] at hops
    rw [heq, if_neg hbig, hout] 
    rw [hout] at hbig
    exact .inr ⟨hops, fun h0 => by by_contra hc; exact hbig ⟨h0, by omega⟩, rfl⟩

lemma patchDelta_of_replays {src trg ops : List UInt8} (hsrc : src.length < 2 ^ 64)
    (htrg : trg.length < 2 ^ 64) (hpos : trg ≠ []) (h : Replays src ops trg) :
    patchDelta src (putDeltaHdrSize src.length ++ putDeltaHdrSize trg.length ++ ops) = .ok trg := by
  have hloop := h [] 0 []
  rw [List.append_nil, Nat.add_zero, List.nil_append] at hloop
  have hmin : ¬ (putDeltaHdrSize src.length ++ putDeltaHdrSize trg.length ++ ops).length <
      DELTA_SIZE_MIN := by
    have h1 := length_putDeltaHdrSize_pos src.length
    have h2 := length_putDeltaHdrSize_pos trg.length
    simp only [List.length_append, DELTA_SIZE_MIN]
    match ops with
    | [] =>
      have hsize := List.length_pos_iff.mpr hpos
      rw [patchLoop, patchLoop, if_pos (by omega), if_neg (by simp)] at hloop
      cases hloop
    | [cmd] =>
      have h3 := length_putDeltaHdrSize_of_le h.singleton
      simp only [List.length_cons, List.length_nil]
      omega
    | _ :: _ :: _ =>
      simp only [List.length_cons]
      omega
  rw [patchDelta, if_neg hmin, List.append_assoc, getDeltaHdrSize_put hsrc]
  simp only [bind, Except.bind, ne_eq, not_true_eq_false, if_false, getDeltaHdrSize_put htrg]
  rw [hloop, patchLoop, if_neg (by simp)]

lemma diffDelta_eq {src trg : List UInt8} {maxSize : Nat} {delta : List UInt8}
    (h : diffDelta src trg maxSize = some delta) :
    ∃ index, createDeltaIndex src = some index ∧ index.srcBuf = src ∧
      createDelta index trg maxSize = some delta := by
  by_cases hsrc : src = []
  · rw [diffDelta, createDeltaIndex, if_pos (by simp [hsrc])] at h
    cases h
  · obtain ⟨index, hidx, hbuf, -⟩ := createDeltaIndex_total hsrc
    rw [diffDelta, hidx] at h
    exact ⟨index, hidx, hbuf, h⟩

/-- A delta respects the size limit, and applied to the source it gives back the target. -/
theorem patchDelta_diffDelta (src trg : List UInt8) (maxSize : Nat) (delta : List UInt8)
    (hsrc : src.length < 2 ^ 32) (htrg : trg.length < 2 ^ 32)
    (h : diffDelta src trg maxSize = some delta) :
    (maxSize ≠ 0 → delta.length ≤ maxSize) ∧ patchDelta src delta = .ok trg := by
  obtain ⟨index, -, hbuf, hdelta⟩ := diffDelta_eq h
  have hpos : trg ≠ [] := by
    rintro rfl
    rw [createDelta, if_pos List.length_nil] at hdelta
    cases hdelta
  obtain ⟨ops, ⟨hnone, -⟩ | ⟨hops, hmax, hsome⟩⟩ :=
    @createDelta_spec index _ maxSize (by rwa [hbuf]) hpos
  · rw [hnone] at hdelta
    cases hdelta
  · rw [hsome, Option.some.injEq] at hdelta
    rw [hbuf] at hops hmax hdelta
    subst hdelta
    exact ⟨hmax, patchDelta_of_replays (hsrc.trans (by decide)) (htrg.trans (by decide)) hpos hops⟩

theorem patchDelta_diffDelta_copy :
    ([24, 25, 1, 7, 0x90, 24] : List UInt8).length ≤ 24 ∧
      patchDelta ((List.range 24).map UInt8.ofNat) [24, 25, 1, 7, 0x90, 24] =
        .ok (7 :: (List.range 24).map UInt8.ofNat) := by
  have h := patchDelta_diffDelta ((List.range 24).map UInt8.ofNat)
    (7 :: (List.range 24).map UInt8.ofNat) 24 [24, 25, 1, 7, 0x90, 24] (by decide) (by decide)
    (by decide +kernel)
  exact ⟨h.1 (by decide), h.2⟩

end GitCore.Delta
