import GitCore.Xdiff.Patch

/-!
# The hunks of a diff

How `xdl_emit_diff` splits a script without ignored changes into hunks, where the hunks start
and end, and when they make up a diff of the two files.
-/

namespace GitCore.Xdiff

section Split

variable {xe : XdfEnv} {xecfg : XdEmitConf}

/-- How many changes follow `xchp` without a gap of more than `max_common` lines. -/
def chain (xecfg : XdEmitConf) : XdChange → List XdChange → Nat
  | _, [] => 0
  | xchp, xch :: rest => if distance xchp xch > maxCommon xecfg then 0 else chain xecfg xch rest + 1

lemma lastOfHunk_eq {rest : List XdChange} (h : ∀ xch ∈ rest, xch.ignore = false) (maxIgnorable : Nat)
    (xchp : XdChange) (ignored : Int) (i : Nat) :
    lastOfHunk (maxCommon xecfg) maxIgnorable xchp i ignored xchp i rest = i + chain xecfg xchp rest := by
  induction rest generalizing xchp ignored i with
  | nil => rfl
  | cons xch rest ih =>
    have hxch := h xch (by simp)
    have ih := ih fun x hx => h x (by simp [hx])
    rw [lastOfHunk, chain]
    simp only [hxch]
    by_cases hfar : distance xchp xch > maxCommon xecfg
    · simp [hfar]
    · simp [hfar, ih, Nat.add_assoc, Nat.add_comm 1]

lemma skipIgnorable_eq {script : List XdChange} (h : ∀ xch ∈ script, xch.ignore = false)
    (maxIgnorable : Nat) (xscr : List XdChange) : skipIgnorable maxIgnorable xscr script = xscr := by
  cases script with
  | nil => rfl
  | cons xch rest => rw [skipIgnorable, if_neg (by simp [h xch])]

lemma getHunk_cons {b : XdChange} {rest : List XdChange} (h : ∀ xch ∈ b :: rest, xch.ignore = false) :
    getHunk xecfg (b :: rest) =
      some ⟨[], b, rest.take (chain xecfg b rest), rest.drop (chain xecfg b rest)⟩ := by
  have hlast := @lastOfHunk_eq xecfg rest (fun x hx => h x (by simp [hx])) xecfg.ctxlen b 0 0
  rw [getHunk, skipIgnorable_eq h]
  simp only [hlast, Nat.zero_add, Nat.sub_self, List.take_zero]

/-- The changes that follow `a` in its hunk, and the rest of the script. `merged` tells whether
the function context has brought `a` into the hunk. -/
def hunkTail (xe : XdfEnv) (xecfg : XdEmitConf) (merged : Bool) (a : XdChange) :
    List XdChange → List XdChange × List XdChange
  | [] => ([], [])
  | next :: rest =>
    if merged = false ∧ distance a next ≤ maxCommon xecfg then
      (next :: (hunkTail xe xecfg false next rest).1, (hunkTail xe xecfg false next rest).2)
    else if xecfg.emitFunccontext ∧ overlapsNext xe xecfg (hunkEnd xe xecfg a).1 next then
      (next :: (hunkTail xe xecfg true next rest).1, (hunkTail xe xecfg true next rest).2)
    else ([], next :: rest)

def hunkBreaks (xe : XdfEnv) (xecfg : XdEmitConf) (merged : Bool) (a : XdChange) :
    List XdChange → List (XdChange × XdChange)
  | [] => []
  | next :: rest =>
    if merged = false ∧ distance a next ≤ maxCommon xecfg then hunkBreaks xe xecfg false next rest
    else if xecfg.emitFunccontext ∧ overlapsNext xe xecfg (hunkEnd xe xecfg a).1 next then
      hunkBreaks xe xecfg true next rest
    else (a, next) :: hunkBreaks xe xecfg false next rest

lemma hunkTail_merged (a : XdChange) (script : List XdChange) :
    hunkTail xe xecfg true a script =
      ((postContext xe xecfg a script).1, (postContext xe xecfg a script).2.2) := by
  induction script generalizing a with
  | nil => rfl
  | cons next rest ih =>
    rw [hunkTail, postContext, if_neg (by simp), ih]
    split_ifs <;> rfl

lemma hunkTail_eq (b : XdChange) (script : List XdChange) :
    hunkTail xe xecfg false b script =
      let others := script.take (chain xecfg b script)
      let post := postContext xe xecfg ((b :: others).getLast (by simp)) (script.drop (chain xecfg b script))
      (others ++ post.1, post.2.2) := by
  induction script generalizing b with
  | nil => rfl
  | cons next rest ih =>
    rw [hunkTail, chain]
    by_cases hfar : distance b next > maxCommon xecfg
    · rw [if_neg (by simpa using hfar), if_pos hfar, hunkTail_merged]
      simp only [List.take_zero, List.drop_zero, List.nil_append, List.getLast_singleton, postContext]
      split_ifs <;> rfl
    · rw [if_pos ⟨rfl, not_lt.mp hfar⟩, if_neg hfar, ih]
      simp only [List.take_succ_cons, List.drop_succ_cons, List.getLast_cons_cons, List.cons_append]

lemma postContext_stop (a : XdChange) (script : List XdChange) :
    (postContext xe xecfg a script).2.1 =
      hunkEnd xe xecfg ((a :: (postContext xe xecfg a script).1).getLast (by simp)) := by
  induction script generalizing a with
  | nil => rfl
  | cons next rest ih =>
    by_cases hover : xecfg.emitFunccontext ∧ overlapsNext xe xecfg (hunkEnd xe xecfg a).1 next
    · have hstep : postContext xe xecfg a (next :: rest) =
          (next :: (postContext xe xecfg next rest).1, (postContext xe xecfg next rest).2.1,
            (postContext xe xecfg next rest).2.2) := by
        rw [postContext, if_pos hover]
      simp only [hstep, ih, List.getLast_cons_cons]
    · have hstep : postContext xe xecfg a (next :: rest) = ([], hunkEnd xe xecfg a, next :: rest) := by
        rw [postContext, if_neg hover]
      simp only [hstep, List.getLast_singleton]

lemma preContext_nil (xch : XdChange) :
    preContext xe xecfg [] xch = ([], (preContextCalculation xe xecfg xch).1) := by
  unfold preContext
  split
  · next heq => rw [heq]
  · next heq => rw [heq]; rfl

lemma getLast_append_getLast (b : XdChange) (others merged : List XdChange) :
    (((b :: others).getLast (by simp)) :: merged).getLast (by simp) =
      (b :: (others ++ merged)).getLast (by simp) := by
  cases merged with
  | nil => simp
  | cons x merged =>
    rw [List.getLast_cons_cons]
    have : b :: (others ++ x :: merged) = (b :: others) ++ (x :: merged) := rfl
    simp only [this, List.getLast_append_of_ne_nil, ne_eq, reduceCtorEq, not_false_eq_true]

lemma emitDiffLoop_cons {b : XdChange} {script : List XdChange}
    (h : ∀ xch ∈ b :: script, xch.ignore = false) (fs : FuncState) :
    ∃ func fs', emitDiffLoop xe xecfg fs (b :: script) =
      makeHunk xe func (b :: (hunkTail xe xecfg false b script).1) (preContextCalculation xe xecfg b).1
          (hunkEnd xe xecfg ((b :: (hunkTail xe xecfg false b script).1).getLast (by simp))) ::
        emitDiffLoop xe xecfg fs' (hunkTail xe xecfg false b script).2 := by
  have hget := @getHunk_cons xecfg _ _ h
  have hstop := @postContext_stop xe xecfg
    ((b :: script.take (chain xecfg b script)).getLast (by simp)) (script.drop (chain xecfg b script))
  rw [getLast_append_getLast] at hstop
  rw [emitDiffLoop]
  split
  · next heq => rw [hget] at heq; cases heq
  · next split heq =>
    rw [hget] at heq
    cases heq
    simp only [preContext_nil, HunkSplit.xche, List.nil_append, hunkTail_eq, hstop]
    exact ⟨_, _, rfl⟩

lemma emitDiffLoop_nil (fs : FuncState) : emitDiffLoop xe xecfg fs [] = [] := by
  rw [emitDiffLoop]
  rfl

def Separate (xe : XdfEnv) (xecfg : XdEmitConf) (a next : XdChange) : Prop :=
  if xecfg.emitFunccontext then overlapsNext xe xecfg (hunkEnd xe xecfg a).1 next = false
  else distance a next > maxCommon xecfg

structure SplitsAt (xe : XdfEnv) (xecfg : XdEmitConf) (merged : Bool) (a : XdChange)
    (script others rest : List XdChange) : Prop where
  append : script = others ++ rest
  last : rest = [] → hunkBreaks xe xecfg merged a script = []
  next : ∀ next rest', rest = next :: rest' →
    Separate xe xecfg ((a :: others).getLast (by simp)) next ∧
      hunkBreaks xe xecfg merged a script =
        ((a :: others).getLast (by simp), next) :: hunkBreaks xe xecfg false next rest'

lemma SplitsAt.cons {merged merged' : Bool} {a next : XdChange} {script others rest : List XdChange}
    (h : SplitsAt xe xecfg merged' next script others rest)
    (hbreaks : hunkBreaks xe xecfg merged a (next :: script) = hunkBreaks xe xecfg merged' next script) :
    SplitsAt xe xecfg merged a (next :: script) (next :: others) rest where
  append := by rw [h.append, List.cons_append]
  last hrest := hbreaks.trans (h.last hrest)
  next x rest' hrest := by
    rw [List.getLast_cons_cons, hbreaks]
    exact h.next x rest' hrest

lemma hunkTail_splitsAt {merged : Bool} (hmerged : merged → xecfg.emitFunccontext) (a : XdChange)
    (script : List XdChange) :
    SplitsAt xe xecfg merged a script (hunkTail xe xecfg merged a script).1
      (hunkTail xe xecfg merged a script).2 := by
  induction script generalizing a merged with
  | nil => exact ⟨rfl, fun _ => rfl, fun _ _ h => absurd h (by simp [hunkTail])⟩
  | cons next rest ih =>
    rw [hunkTail]
    split_ifs with hnear hover
    · exact (ih (by simp) next).cons (by rw [hunkBreaks, if_pos hnear])
    · exact (ih (fun _ => hover.1) next).cons (by rw [hunkBreaks, if_neg hnear, if_pos hover])
    · refine ⟨rfl, fun h => absurd h (by simp), fun x rest' hrest => ?_⟩
      cases hrest
      refine ⟨?_, by rw [hunkBreaks, if_neg hnear, if_neg hover]; rfl⟩
      rw [List.getLast_singleton, Separate]
      split_ifs with hfunc
      · simpa [hfunc] using hover
      · have : merged = false := by
          cases merged
          · rfl
          · exact absurd (hmerged rfl) hfunc
        simpa [this] using hnear

end Split

section Lines

variable {xecfg : XdEmitConf} {xdf : XdFile}

lemma getFuncLineLoop_up (steps l : Nat) (h : l + steps ≤ xdf.nrec) :
    (getFuncLineLoop xecfg xdf 1 1 steps l = none ∧
        ∀ j, l ≤ j → j < l + steps → isFuncRec xecfg xdf j = false) ∨
      ∃ f text, getFuncLineLoop xecfg xdf 1 1 steps l = some (f, text) ∧ l ≤ f ∧ f < l + steps ∧
        isFuncRec xecfg xdf f = true ∧ ∀ j, l ≤ j → j < f → isFuncRec xecfg xdf j = false := by
  induction steps generalizing l with
  | zero => exact .inl ⟨rfl, fun j h1 h2 => by omega⟩
  | succ steps ih =>
    rw [getFuncLineLoop, if_pos (by omega), Int.toNat_natCast]
    cases hm : matchFuncRec xecfg xdf l 1 with
    | some text =>
      exact .inr ⟨l, text, rfl, le_rfl, by omega, by simp [isFuncRec, hm], fun j h1 h2 => by omega⟩
    | none =>
      have hl : isFuncRec xecfg xdf l = false := by simp [isFuncRec, hm]
      have hsplit (j : Nat) (hj : l ≤ j) (hnext : l + 1 ≤ j → isFuncRec xecfg xdf j = false) :
          isFuncRec xecfg xdf j = false := by
        rcases Nat.eq_or_lt_of_le hj with rfl | hlt
        · exact hl
        · exact hnext hlt
      have hcast : (l : Int) + 1 = ((l + 1 : Nat) : Int) := by push_cast; rfl
      simp only [hcast]
      rcases ih (l + 1) (by omega) with ⟨hn, hnone⟩ | ⟨f, text, hs, h1, h2, hf, hfirst⟩
      · exact .inl ⟨hn, fun j hj hj' => hsplit j hj fun hlt => hnone j hlt (by omega)⟩
      · exact .inr ⟨f, text, hs, by omega, by omega, hf, fun j hj hj' =>
          hsplit j hj fun hlt => hfirst j hlt hj'⟩

lemma getFuncLineLoop_down (steps l : Nat) (hl : l < xdf.nrec) (h : steps ≤ l + 1) :
    (getFuncLineLoop xecfg xdf 1 (-1) steps l = none ∧
        ∀ j, l < j + steps → j ≤ l → isFuncRec xecfg xdf j = false) ∨
      ∃ f text, getFuncLineLoop xecfg xdf 1 (-1) steps l = some (f, text) ∧ l < f + steps ∧ f ≤ l ∧
        isFuncRec xecfg xdf f = true ∧ ∀ j, f < j → j ≤ l → isFuncRec xecfg xdf j = false := by
  induction steps generalizing l with
  | zero => exact .inl ⟨rfl, fun j h1 h2 => by omega⟩
  | succ steps ih =>
    rw [getFuncLineLoop, if_pos (by omega), Int.toNat_natCast]
    cases hm : matchFuncRec xecfg xdf l 1 with
    | some text =>
      exact .inr ⟨l, text, rfl, by omega, le_rfl, by simp [isFuncRec, hm], fun j h1 h2 => by omega⟩
    | none =>
      have hfl : isFuncRec xecfg xdf l = false := by simp [isFuncRec, hm]
      have hsplit (j : Nat) (hj : j ≤ l) (hnext : j < l → isFuncRec xecfg xdf j = false) :
          isFuncRec xecfg xdf j = false := by
        rcases Nat.eq_or_lt_of_le hj with rfl | hlt
        · exact hfl
        · exact hnext hlt
      cases steps with
      | zero => exact .inl ⟨rfl, fun j hj hj' => hsplit j hj' fun hlt => by omega⟩
      | succ steps =>
        have hcast : (l : Int) + -1 = ((l - 1 : Nat) : Int) := by omega
        simp only [hcast]
        rcases ih (l - 1) (by omega) (by omega) with ⟨hn, hnone⟩ | ⟨f, text, hs, h1, h2, hf, hfirst⟩
        · exact .inl ⟨hn, fun j hj hj' => hsplit j hj' fun hlt => hnone j (by omega) (by omega)⟩
        · exact .inr ⟨f, text, hs, by omega, by omega, hf, fun j hj hj' =>
            hsplit j hj' fun hlt => hfirst j hj (by omega)⟩

lemma getFuncLine_next {a : Nat} (h : a ≤ xdf.nrec) :
    (getFuncLine xecfg xdf 1 a xdf.nrec = none ∧
        ∀ j, a ≤ j → j < xdf.nrec → isFuncRec xecfg xdf j = false) ∨
      ∃ f text, getFuncLine xecfg xdf 1 a xdf.nrec = some (f, text) ∧ a ≤ f ∧ f < xdf.nrec ∧
        isFuncRec xecfg xdf f = true ∧ ∀ j, a ≤ j → j < f → isFuncRec xecfg xdf j = false := by
  have hsteps : ((a : Int) - xdf.nrec).natAbs = xdf.nrec - a := by omega
  rw [getFuncLine, if_neg (by omega), hsteps]
  have hend : a + (xdf.nrec - a) = xdf.nrec := Nat.add_sub_cancel' h
  have := @getFuncLineLoop_up xecfg xdf (xdf.nrec - a) a hend.le
  rwa [hend] at this

lemma getFuncLine_prev {l : Nat} {limit : Int} (hl : l < xdf.nrec) (h0 : -1 ≤ limit) (h : limit < l) :
    (getFuncLine xecfg xdf 1 l limit = none ∧
        ∀ j : Nat, limit < j → j ≤ l → isFuncRec xecfg xdf j = false) ∨
      ∃ (f : Nat) (text : List UInt8), getFuncLine xecfg xdf 1 l limit = some (f, text) ∧ limit < f ∧ f ≤ l ∧
        isFuncRec xecfg xdf f = true ∧ ∀ j, f < j → j ≤ l → isFuncRec xecfg xdf j = false := by
  obtain ⟨steps, hsteps⟩ : ∃ steps : Nat, (l : Int) - limit = steps :=
    ⟨(l - limit).toNat, by omega⟩
  rw [getFuncLine, if_pos h, hsteps, Int.natAbs_natCast]
  rcases @getFuncLineLoop_down xecfg _ steps l hl (by omega) with ⟨hn, hnone⟩ | ⟨f, text, hs, h1, h2⟩
  · exact .inl ⟨hn, fun j hj hj' => hnone j (by omega) hj'⟩
  · exact .inr ⟨f, text, hs, by omega, h2⟩

lemma climbComment_le (f : Nat) : climbComment xecfg xdf f ≤ f := by
  induction f with
  | zero => simp [climbComment]
  | succ f ih =>
    rw [climbComment]
    split_ifs <;> omega

lemma climbComment_lt {e f : Nat} (he : 0 < e) (hef : e ≤ f) : climbComment xecfg xdf f < e ↔
    ∀ j, e - 1 ≤ j → j < f → isEmptyRec xdf j = false ∧ isFuncRec xecfg xdf j = false := by
  induction f with
  | zero => omega
  | succ f ih =>
    rw [climbComment]
    split_ifs with hstep
    · have hf : isEmptyRec xdf f = false ∧ isFuncRec xecfg xdf f = false := by simpa using hstep
      rcases Nat.eq_or_lt_of_le hef with rfl | hlt
      · have := @climbComment_le xecfg xdf f
        refine ⟨fun _ j hj hj' => ?_, fun _ => by omega⟩
        obtain rfl : j = f := by omega
        exact hf
      · rw [ih (by omega)]
        refine ⟨fun hall j hj hj' => ?_, fun hall j hj hj' => hall j hj (by omega)⟩
        rcases Nat.eq_or_lt_of_le (Nat.le_of_lt_succ hj') with rfl | hjf
        · exact hf
        · exact hall j hj hjf
    · refine ⟨fun hlt => by omega, fun hall => absurd ?_ hstep⟩
      simpa using hall f (by omega) (by omega)

lemma dropBlank_spec (f : Nat) : dropBlank xdf f ≤ f ∧
    ∀ j, dropBlank xdf f ≤ j → j < f → isEmptyRec xdf j = true := by
  induction f with
  | zero => simp [dropBlank]
  | succ f ih =>
    rw [dropBlank]
    split_ifs with hblank
    · refine ⟨by omega, fun j hj hj' => ?_⟩
      rcases Nat.eq_or_lt_of_le (Nat.le_of_lt_succ hj') with rfl | hlt
      · exact hblank
      · exact ih.2 j hj hlt
    · exact ⟨le_rfl, fun j hj hj' => by omega⟩

end Lines

section Context

variable {xe : XdfEnv} {xecfg : XdEmitConf}

def postCtx (xe : XdfEnv) (xecfg : XdEmitConf) (a : XdChange) : Nat :=
  min (min xecfg.ctxlen (xe.xdf1.nrec - a.end1)) (xe.xdf2.nrec - a.end2)

lemma funcContextEnd_le {a : XdChange} (h1 : a.end1 ≤ xe.xdf1.nrec) :
    funcContextEnd xe xecfg a ≤ xe.xdf1.nrec := by
  unfold funcContextEnd
  rcases @getFuncLine_next xecfg _ _ h1 with ⟨hn, -⟩ | ⟨f, text, hs, -, hf, -⟩
  · rw [hn]
  · rw [hs]
    exact (dropBlank_spec f).1.trans hf.le

lemma hunkEnd_cases (a : XdChange) :
    ((xecfg.emitFunccontext → funcContextEnd xe xecfg a ≤ a.end1 + postCtx xe xecfg a) ∧
        hunkEnd xe xecfg a = (a.end1 + postCtx xe xecfg a, a.end2 + postCtx xe xecfg a)) ∨
      xecfg.emitFunccontext ∧ a.end1 + postCtx xe xecfg a < funcContextEnd xe xecfg a ∧
        hunkEnd xe xecfg a = (funcContextEnd xe xecfg a, min (a.end2 + postCtx xe xecfg a +
          (funcContextEnd xe xecfg a - (a.end1 + postCtx xe xecfg a))) xe.xdf2.nrec) := by
  unfold hunkEnd
  dsimp only
  split_ifs with h
  · exact .inr ⟨h.1, h.2, rfl⟩
  · exact .inl ⟨fun hfunc => not_lt.mp fun hlt => h ⟨hfunc, hlt⟩, rfl⟩

lemma hunkEnd_sync {a : XdChange} {t : Nat} (h1 : a.end1 + t ≤ xe.xdf1.nrec)
    (h2 : a.end2 + t ≤ xe.xdf2.nrec) (ht : (hunkEnd xe xecfg a).1 ≤ a.end1 + t) :
    a.end1 ≤ (hunkEnd xe xecfg a).1 ∧
      (hunkEnd xe xecfg a).2 = a.end2 + ((hunkEnd xe xecfg a).1 - a.end1) := by
  have hle := @funcContextEnd_le xe xecfg a (by omega)
  rcases @hunkEnd_cases xe xecfg a with ⟨-, heq⟩ | ⟨-, hlt, heq⟩
  · rw [heq]
    simp only
    omega
  · rw [heq] at ht ⊢
    simp only at ht ⊢
    omega

lemma Separate.gap {a next : XdChange} (h : Separate xe xecfg a next)
    (hnext : next.i1 ≤ xe.xdf1.nrec) : (hunkEnd xe xecfg a).1 + xecfg.ctxlen < next.i1 := by
  unfold Separate at h
  split_ifs at h with hfunc
  · simp only [overlapsNext, decide_eq_false_iff_not, not_or, not_le] at h
    have := h.1
    omega
  · have hmax := xe.xdf1.nrec_le
    have hnrec : xe.xdf1.nrec = xe.xdf1.recs.length := rfl
    have hend : (hunkEnd xe xecfg a).1 = a.end1 + postCtx xe xecfg a := by
      rcases @hunkEnd_cases xe xecfg a with ⟨-, heq⟩ | ⟨hf, -⟩
      · rw [heq]
      · exact absurd hf hfunc
    have hctx : postCtx xe xecfg a ≤ xecfg.ctxlen := (min_le_left _ _).trans (min_le_left _ _)
    have hdist : distance a next = next.i1 - a.end1 := by simp [distance, XdChange.end1]
    rw [hdist] at h
    unfold maxCommon saturatingAdd at h
    split_ifs at h <;> omega

/-- The start of a hunk stays in step, too, if it does not lie before `q`. -/
def Entry (xe : XdfEnv) (xecfg : XdEmitConf) (q : Nat × Nat) (b : XdChange) : Prop :=
  q.1 ≤ (preContextCalculation xe xecfg b).1.1 ∧ (q = (0, 0) ∨ q.1 + xecfg.ctxlen ≤ b.i1)

lemma preContextCalculation_cases (b : XdChange) :
    (preContextCalculation xe xecfg b).1 = (b.i1 - xecfg.ctxlen, b.i2 - xecfg.ctxlen) ∨
      xecfg.emitFunccontext ∧ funcContextStart xe xecfg b < b.i1 - xecfg.ctxlen ∧
        (preContextCalculation xe xecfg b).1 = (funcContextStart xe xecfg b,
          b.i2 - xecfg.ctxlen - (b.i1 - xecfg.ctxlen - funcContextStart xe xecfg b)) := by
  unfold preContextCalculation
  dsimp only
  split_ifs with hfunc hlt
  · exact .inr ⟨hfunc.1, hlt, rfl⟩
  · exact .inl rfl
  · exact .inl rfl

lemma Entry.sync {q : Nat × Nat} {b : XdChange} {rest : List XdChange} (h : Entry xe xecfg q b)
    (haligned : Aligned xe q.1 q.2 (b :: rest)) :
    (preContextCalculation xe xecfg b).1.2 = q.2 + ((preContextCalculation xe xecfg b).1.1 - q.1) ∧
      (preContextCalculation xe xecfg b).1.1 ≤ b.i1 := by
  obtain ⟨h1, h2, hgap⟩ := haligned.gap
  obtain ⟨hge, hq⟩ := h
  have hq' : (q.1 = 0 ∧ q.2 = 0) ∨ q.1 + xecfg.ctxlen ≤ b.i1 := by
    rcases hq with rfl | hq
    · exact .inl ⟨rfl, rfl⟩
    · exact .inr hq
  rcases @preContextCalculation_cases xe xecfg b with heq | ⟨-, hlt, heq⟩
  · rw [heq] at hge ⊢
    simp only at hge ⊢
    omega
  · rw [heq] at hge ⊢
    simp only at hge ⊢
    omega

lemma lastEnd_getLast (p : Nat × Nat) (b : XdChange) (others : List XdChange) :
    lastEnd p (b :: others) =
      (((b :: others).getLast (by simp)).end1, ((b :: others).getLast (by simp)).end2) := by
  rw [lastEnd, List.getLast?_eq_some_getLast (by simp), Option.map_some, Option.getD_some]

lemma Aligned.after_getLast {q : Nat × Nat} {b : XdChange} {others rest : List XdChange}
    (h : Aligned xe q.1 q.2 (b :: others ++ rest)) :
    Aligned xe ((b :: others).getLast (by simp)).end1 ((b :: others).getLast (by simp)).end2 rest := by
  have hafter := h.after
  rwa [lastEnd_getLast] at hafter

lemma fits_hunk {q : Nat × Nat} {b : XdChange} {others rest : List XdChange}
    (haligned : Aligned xe q.1 q.2 (b :: others ++ rest)) (hentry : Entry xe xecfg q b)
    (hsep : ∀ next rest', rest = next :: rest' →
      Separate xe xecfg ((b :: others).getLast (by simp)) next) :
    Fits xe q (b :: others) rest (preContextCalculation xe xecfg b).1
      (hunkEnd xe xecfg ((b :: others).getLast (by simp))) := by
  obtain ⟨hsync, hle⟩ := hentry.sync haligned
  have hafter := haligned.after_getLast
  have hlast := lastEnd_getLast q b others
  generalize (b :: others).getLast (by simp) = last at *
  have hstop : last.end1 ≤ (hunkEnd xe xecfg last).1 ∧
      (hunkEnd xe xecfg last).2 = last.end2 + ((hunkEnd xe xecfg last).1 - last.end1) ∧
      (hunkEnd xe xecfg last).1 ≤ nextStart xe rest := by
    cases rest with
    | nil =>
      obtain ⟨h1, h2, hgap⟩ := hafter.tail_gap
      have hend : (hunkEnd xe xecfg last).1 ≤ xe.xdf1.nrec := by
        rcases @hunkEnd_cases xe xecfg last with ⟨-, heq⟩ | ⟨-, -, heq⟩
        · rw [heq]
          have : postCtx xe xecfg last ≤ xe.xdf1.nrec - last.end1 := (min_le_left _ _).trans (min_le_right _ _)
          simp only
          omega
        · rw [heq]
          exact funcContextEnd_le h1
      obtain ⟨hge, hsync⟩ := @hunkEnd_sync xe xecfg last (xe.xdf1.nrec - last.end1) (by omega) (by omega) (by omega)
      exact ⟨hge, hsync, hend⟩
    | cons next rest =>
      obtain ⟨h1, h2, hgap⟩ := hafter.gap
      have hn1 : next.i1 ≤ xe.xdf1.nrec := (Nat.le_add_right _ _).trans hafter.2.2.2.1
      have hn2 : next.i2 ≤ xe.xdf2.nrec := (Nat.le_add_right _ _).trans hafter.2.2.2.2.1
      have hlt := (hsep next rest rfl).gap hn1
      obtain ⟨hge, hsync⟩ := @hunkEnd_sync xe xecfg last (next.i1 - last.end1) (by omega) (by omega) (by omega)
      exact ⟨hge, hsync, by simp only [nextStart]; omega⟩
  refine ⟨haligned, by simp, hentry.1, hsync, hle, ?_, ?_, hstop.2.2⟩
  · rw [hlast]
    exact hstop.1
  · rw [hlast]
    exact hstop.2.1

/-- The function context of `b` climbs into the context of `a`: a function line follows `a` so
closely that the context goes on behind it, and no blank line and no function line stands
between the end of the context and the last function line in front of `b`. -/
def Crosses (xe : XdfEnv) (xecfg : XdEmitConf) (a b : XdChange) : Prop :=
  let e1 := a.end1 + xecfg.ctxlen
  let l := min b.i1 (xe.xdf1.nrec - 1)
  xecfg.emitFunccontext ∧ e1 + xecfg.ctxlen < l ∧
    (∃ g, a.end1 ≤ g ∧ g + 1 < e1 ∧ isFuncRec xecfg xe.xdf1 g) ∧
    (∃ f, e1 < f ∧ f ≤ l ∧ isFuncRec xecfg xe.xdf1 f ∧
      (∀ j, f < j → j ≤ l → isFuncRec xecfg xe.xdf1 j = false) ∧
      ∀ j, e1 - 1 ≤ j → j < f → isEmptyRec xe.xdf1 j = false ∧ isFuncRec xecfg xe.xdf1 j = false) ∧
    ¬ (b.i1 ≥ xe.xdf1.nrec ∧ addsFunction xe xecfg b.i2)

lemma funcContextStart_eq {b : XdChange} {f : Nat} (hb : b.i1 ≤ xe.xdf1.nrec)
    (hf : f ≤ min b.i1 (xe.xdf1.nrec - 1)) (hn : 0 < xe.xdf1.nrec) (hfunc : isFuncRec xecfg xe.xdf1 f = true)
    (hlast : ∀ j, f < j → j ≤ min b.i1 (xe.xdf1.nrec - 1) → isFuncRec xecfg xe.xdf1 j = false) :
    funcContextStart xe xecfg b = climbComment xecfg xe.xdf1 f := by
  have hl : (if b.i1 ≥ xe.xdf1.nrec then (xe.xdf1.nrec : Int) - 1 else b.i1) =
      (min b.i1 (xe.xdf1.nrec - 1) : Nat) := by
    split_ifs <;> omega
  unfold funcContextStart
  simp only [hl]
  rcases @getFuncLine_prev xecfg xe.xdf1 (min b.i1 (xe.xdf1.nrec - 1)) (-1)
    (by omega) le_rfl (by omega) with ⟨-, hnone⟩ | ⟨f', text, hs, -, hle, hf', hlast'⟩
  · rw [hnone f (by omega) hf] at hfunc
    cases hfunc
  · rw [hs]
    simp only
    rcases lt_trichotomy f f' with hlt | rfl | hlt
    · rw [hlast f' hlt hle] at hf'
      cases hf'
    · rfl
    · rw [hlast' f hlt hf] at hfunc
      cases hfunc

section Pair

variable {a b : XdChange} {rest : List XdChange}

lemma Separate.func (h : Separate xe xecfg a b) (hfunc : xecfg.emitFunccontext = true)
    (hb : b.i1 ≤ xe.xdf1.nrec) : (hunkEnd xe xecfg a).1 + xecfg.ctxlen < min b.i1 (xe.xdf1.nrec - 1) ∧
      ∃ f, (hunkEnd xe xecfg a).1 < f ∧ f ≤ min b.i1 (xe.xdf1.nrec - 1) ∧
        isFuncRec xecfg xe.xdf1 f = true ∧
        ∀ j, f < j → j ≤ min b.i1 (xe.xdf1.nrec - 1) → isFuncRec xecfg xe.xdf1 j = false := by
  rw [Separate, if_pos hfunc] at h
  simp only [overlapsNext, decide_eq_false_iff_not, not_or, not_le] at h
  obtain ⟨hlt, hsome⟩ := h
  have hn : 0 < xe.xdf1.nrec := by omega
  have hl : min (b.i1 : Int) (xe.xdf1.nrec - 1) = (min b.i1 (xe.xdf1.nrec - 1) : Nat) := by omega
  rw [hl] at hlt hsome
  refine ⟨by omega, ?_⟩
  rcases @getFuncLine_prev xecfg xe.xdf1 (min b.i1 (xe.xdf1.nrec - 1)) (hunkEnd xe xecfg a).1 (by omega) (by omega) (by omega) with
    ⟨hnone, -⟩ | ⟨f, text, -, hf1, hf2, hf, hlast⟩
  · exact absurd hnone hsome
  · exact ⟨f, by omega, hf2, hf, hlast⟩

lemma postCtx_eq (haligned : Aligned xe a.end1 a.end2 (b :: rest)) (h : a.end1 + xecfg.ctxlen ≤ b.i1) :
    postCtx xe xecfg a = xecfg.ctxlen := by
  obtain ⟨h1, h2, hgap⟩ := haligned.gap
  have hn1 : b.i1 ≤ xe.xdf1.nrec := (Nat.le_add_right _ _).trans haligned.2.2.2.1
  have hn2 : b.i2 ≤ xe.xdf2.nrec := (Nat.le_add_right _ _).trans haligned.2.2.2.2.1
  unfold postCtx
  omega

lemma funcContextEnd_eq {g : Nat} (hg1 : a.end1 ≤ g) (hg2 : g < xe.xdf1.nrec)
    (hg : isFuncRec xecfg xe.xdf1 g = true) :
    ∃ g', a.end1 ≤ g' ∧ g' ≤ g ∧ isFuncRec xecfg xe.xdf1 g' = true ∧
      (∀ j, a.end1 ≤ j → j < g' → isFuncRec xecfg xe.xdf1 j = false) ∧
      funcContextEnd xe xecfg a = dropBlank xe.xdf1 g' := by
  unfold funcContextEnd
  rcases @getFuncLine_next xecfg xe.xdf1 a.end1 (by omega) with
    ⟨-, hnone⟩ | ⟨g', text, hs, h1, h2, hg', hfirst⟩
  · rw [hnone g hg1 hg2] at hg
    cases hg
  · rw [hs]
    refine ⟨g', h1, ?_, hg', hfirst, rfl⟩
    by_contra hlt
    rw [hfirst g hg1 (by omega)] at hg
    cases hg

lemma Crosses.hunkEnd_eq (h : Crosses xe xecfg a b) (haligned : Aligned xe a.end1 a.end2 (b :: rest)) :
    (hunkEnd xe xecfg a).1 = a.end1 + xecfg.ctxlen := by
  obtain ⟨-, hE, ⟨g, hg1, hg2, hg⟩, -, -⟩ := h
  obtain ⟨g', -, hg', -, -, hdrop⟩ := @funcContextEnd_eq xe _ _ _ hg1 (by omega) hg
  have hblank := (@dropBlank_spec xe.xdf1 g').1
  have hend := @hunkEnd_cases xe xecfg a
  rw [postCtx_eq haligned (by omega)] at hend
  rcases hend with ⟨-, heq⟩ | ⟨-, hlt, -⟩
  · rw [heq]
  · omega

lemma Separate.crosses_iff (h : Separate xe xecfg a b) (haligned : Aligned xe a.end1 a.end2 (b :: rest)) :
    Crosses xe xecfg a b ↔ (preContextCalculation xe xecfg b).1.1 < (hunkEnd xe xecfg a).1 := by
  have hb : b.i1 ≤ xe.xdf1.nrec := (Nat.le_add_right _ _).trans haligned.2.2.2.1
  have hgap := h.gap hb
  by_cases hfunc : xecfg.emitFunccontext = true
  · obtain ⟨hl, f, hf1, hf2, hf, hlast⟩ := h.func hfunc hb
    have hend := @hunkEnd_cases xe xecfg a
    have hge : a.end1 ≤ (hunkEnd xe xecfg a).1 := by
      rcases hend with ⟨-, heq⟩ | ⟨-, hlt, heq⟩
      · rw [heq]
        exact Nat.le_add_right _ _
      · rw [heq]
        exact (Nat.le_add_right _ _).trans hlt.le
    rw [postCtx_eq haligned (by omega)] at hend
    have hstart := funcContextStart_eq hb hf2 (by omega) hf hlast
    by_cases hskip : b.i1 ≥ xe.xdf1.nrec ∧ addsFunction xe xecfg b.i2
    · have hs : (preContextCalculation xe xecfg b).1.1 = b.i1 - xecfg.ctxlen := by
        unfold preContextCalculation
        rw [if_neg fun hc => hc.2 hskip]
      exact ⟨fun hc => absurd hskip hc.2.2.2.2, fun hlt => by omega⟩
    have hs : (preContextCalculation xe xecfg b).1.1 < (hunkEnd xe xecfg a).1 ↔
        climbComment xecfg xe.xdf1 f < (hunkEnd xe xecfg a).1 := by
      unfold preContextCalculation
      rw [if_pos ⟨hfunc, hskip⟩, hstart]
      dsimp only
      split_ifs
      · exact Iff.rfl
      · simp only
        omega
    rw [hs]
    constructor
    · intro hc
      have he1 := hc.hunkEnd_eq haligned
      obtain ⟨-, -, ⟨g, hg1, hg2, -⟩, ⟨f', hf1', hf2', hf', hlast', hclear⟩, -⟩ := hc
      obtain rfl : f = f' := by
        rcases lt_trichotomy f f' with hlt | heq | hlt
        · rw [hlast f' hlt hf2'] at hf'
          cases hf'
        · exact heq
        · rw [hlast' f hlt hf2] at hf
          cases hf
      rw [he1, climbComment_lt (by omega) hf1'.le]
      exact hclear
    · intro hclimb
      have hclear := (climbComment_lt (by omega) hf1.le).mp hclimb
      obtain ⟨g, hg1, hg2, hg, -, hdrop⟩ := @funcContextEnd_eq xe _ a _ (by omega) (by omega) hf
      obtain ⟨hblank, hempty⟩ := @dropBlank_spec xe.xdf1 g
      rw [← hdrop] at hblank hempty
      -- the first function line stops the climb, and so does a blank line in front of it
      have hgfunc (hlow : (hunkEnd xe xecfg a).1 - 1 ≤ g) : g = f := by
        by_contra hne
        rw [(hclear g hlow (by omega)).2] at hg
        cases hg
      have hgblank (hlow : (hunkEnd xe xecfg a).1 ≤ g - 1) : ¬ funcContextEnd xe xecfg a ≤ g - 1 := by
        intro hle
        have hj := hempty (g - 1) hle (by omega)
        rw [(hclear (g - 1) (by omega) (by omega)).1] at hj
        cases hj
      rcases hend with ⟨hle, heq⟩ | ⟨-, hlt, heq⟩
      · rw [heq] at hl hf1 hclear hgfunc hgblank
        have hle := hle hfunc
        refine ⟨hfunc, hl, ⟨g, hg1, ?_, hg⟩, ⟨f, hf1, hf2, hf, hlast, hclear⟩, hskip⟩
        by_contra hnear
        obtain rfl := hgfunc (by simp only; omega)
        exact hgblank (by simp only at *; omega) (by simp only at *; omega)
      · rw [heq] at hl hf1 hclear hgfunc hgblank
        obtain rfl := hgfunc (by simp only; omega)
        exact absurd (by simp only at *; omega) (hgblank (by simp only at *; omega))
  · refine ⟨fun hc => absurd hc.1 hfunc, fun hlt => ?_⟩
    rcases @preContextCalculation_cases xe xecfg b with heq | ⟨hf, -⟩
    · rw [heq] at hlt
      simp only at hlt
      omega
    · exact absurd hf hfunc

lemma Crosses.not_overlapsNext (h : Crosses xe xecfg a b) (haligned : Aligned xe a.end1 a.end2 (b :: rest)) :
    overlapsNext xe xecfg (hunkEnd xe xecfg a).1 b = false := by
  have he1 := h.hunkEnd_eq haligned
  obtain ⟨-, hE, -, ⟨f, hf1, hf2, hf, -, -⟩, -⟩ := h
  have hl : min (b.i1 : Int) (xe.xdf1.nrec - 1) = (min b.i1 (xe.xdf1.nrec - 1) : Nat) := by omega
  unfold overlapsNext
  simp only [hl, he1, decide_eq_false_iff_not, not_or, not_le]
  refine ⟨by omega, fun hnone => ?_⟩
  rcases @getFuncLine_prev xecfg xe.xdf1 (min b.i1 (xe.xdf1.nrec - 1)) (a.end1 + xecfg.ctxlen : Nat) (by omega) (by omega) (by omega) with ⟨-, hall⟩ | ⟨_, _, hs, -⟩
  · rw [hall f (by omega) hf2] at hf
    cases hf
  · rw [hs] at hnone
    cases hnone

lemma Crosses.distance_gt (h : Crosses xe xecfg a b) (hinter : xecfg.interhunkctxlen = 0) :
    distance a b > maxCommon xecfg := by
  obtain ⟨-, hE, -⟩ := h
  have hdist : distance a b = b.i1 - a.end1 := by simp [distance, XdChange.end1]
  rw [hdist, maxCommon, saturatingAdd, saturatingAdd]
  split_ifs <;> omega

end Pair

end Context

section Run

variable {xe : XdfEnv} {xecfg : XdEmitConf}

structure DiffFrom (xe : XdfEnv) (q : Nat × Nat) (hunks : List Hunk) : Prop where
  counts : ∀ h ∈ hunks, h.oldNr = h.oldLines.length ∧ h.newNr = h.newLines.length
  ordered : hunks.Pairwise fun h h' => h.oldEnd ≤ h'.oldStart ∧ h.newEnd ≤ h'.newStart
  start : ∀ h ∈ hunks, q.1 ≤ h.oldStart ∧ q.2 ≤ h.newStart
  applies : ∃ file, applyHunks xe.xdf1.recs q.1 hunks = some file ∧
    Rebuilds xe file (xe.xdf2.slice q.2 xe.xdf2.nrec)

lemma DiffFrom.cons {p start stop : Nat × Nat} {changes rest : List XdChange} {hunks : List Hunk}
    (hfits : Fits xe p changes rest start stop) (h : DiffFrom xe stop hunks) (func : List UInt8) :
    DiffFrom xe p (makeHunk xe func changes start stop :: hunks) where
  counts := List.forall_mem_cons.mpr ⟨hfits.counts func, h.counts⟩
  ordered := by
    obtain ⟨-, -, -, -, hend1, hend2⟩ := hfits.ends func
    refine List.pairwise_cons.mpr ⟨fun h' hh' => ?_, h.ordered⟩
    rw [hend1, hend2]
    exact h.start h' hh'
  start := by
    obtain ⟨h1, h2, -⟩ := hfits.ends func
    obtain ⟨hs1, hs2⟩ := @oldStart_makeHunk xe start stop changes func
    have hge := hfits.start_ge
    have hsync := hfits.start_sync
    have hstop := hfits.stop_sync
    refine List.forall_mem_cons.mpr ⟨?_, fun h' hh' => ?_⟩
    · rw [hs1, hs2]
      omega
    · obtain ⟨hh1, hh2⟩ := h.start h' hh'
      omega
  applies := by
    obtain ⟨file, happly, hfile⟩ := h.applies
    exact hfits.apply func happly hfile

lemma Aligned.applies_nil {q : Nat × Nat} (h : Aligned xe q.1 q.2 []) : DiffFrom xe q [] where
  counts := by simp
  ordered := List.Pairwise.nil
  start := by simp
  applies := by
    obtain ⟨-, -, hsame⟩ := h
    refine ⟨xe.xdf1.slice q.1 xe.xdf1.nrec, ?_, rebuilds_of_sameLines hsame⟩
    rw [applyHunks, XdFile.slice, List.take_of_length_le (by simp [XdFile.nrec])]

/-- The neighbours that `xdl_emit_diff` puts in different hunks. -/
def scriptBreaks (xe : XdfEnv) (xecfg : XdEmitConf) : List XdChange → List (XdChange × XdChange)
  | [] => []
  | b :: rest => hunkBreaks xe xecfg false b rest

lemma scriptBreaks_cons (b : XdChange) (script : List XdChange) :
    scriptBreaks xe xecfg (b :: script) =
      ((hunkTail xe xecfg false b script).2.head?.map fun next =>
        ((b :: (hunkTail xe xecfg false b script).1).getLast (by simp), next)).toList ++
      scriptBreaks xe xecfg (hunkTail xe xecfg false b script).2 := by
  have hsplit := @hunkTail_splitsAt xe xecfg false (by simp) b script
  rw [scriptBreaks]
  cases hrest : (hunkTail xe xecfg false b script).2 with
  | nil => simpa [scriptBreaks] using hsplit.last hrest
  | cons next rest => simpa [scriptBreaks] using (hsplit.next next rest hrest).2

lemma emitDiffLoop_diffFrom {q : Nat × Nat} {script : List XdChange} (fs : FuncState)
    (hignore : ∀ xch ∈ script, xch.ignore = false) (haligned : Aligned xe q.1 q.2 script)
    (hentry : ∀ b ∈ script.head?, Entry xe xecfg q b)
    (hbreaks : ∀ pair ∈ scriptBreaks xe xecfg script, ¬ Crosses xe xecfg pair.1 pair.2) :
    DiffFrom xe q (emitDiffLoop xe xecfg fs script) := by
  induction hn : script.length using Nat.strong_induction_on generalizing script q fs with
  | _ n ih =>
    cases script with
    | nil =>
      rw [emitDiffLoop_nil]
      exact haligned.applies_nil
    | cons b script =>
      have hsplit := @hunkTail_splitsAt xe xecfg false (by simp) b script
      obtain ⟨func, fs', hloop⟩ := @emitDiffLoop_cons xe xecfg _ _ hignore fs
      rw [scriptBreaks_cons] at hbreaks
      rw [hloop]
      generalize (hunkTail xe xecfg false b script).1 = others at *
      generalize (hunkTail xe xecfg false b script).2 = rest at *
      obtain rfl := hsplit.append
      have hfits := fits_hunk haligned (hentry b rfl) fun next rest' hr => (hsplit.next next rest' hr).1
      refine DiffFrom.cons hfits (ih rest.length ?_ fs' ?_ hfits.aligned_stop.1 ?_ ?_ rfl) func
      · simp only [List.length_cons, List.length_append] at hn
        omega
      · exact fun x hx => hignore x (by simp [hx])
      · intro next hnext
        obtain ⟨rest', rfl⟩ : ∃ rest', rest = next :: rest' := by
          cases rest with
          | nil => simp at hnext
          | cons x rest' => exact ⟨rest', by simpa using hnext⟩
        have hsep := (hsplit.next next rest' rfl).1
        have hafter := haligned.after_getLast
        have hnot := hbreaks _ (List.mem_append_left _ (by simp; rfl))
        refine ⟨not_lt.mp fun hlt => hnot ((hsep.crosses_iff hafter).mpr hlt), .inr ?_⟩
        exact (hsep.gap ((Nat.le_add_right _ _).trans hafter.2.2.2.1)).le
      · exact fun pair hpair => hbreaks pair (List.mem_append_right _ hpair)

lemma not_crosses_of_ordered {q : Nat × Nat} {script : List XdChange} (fs : FuncState)
    (hignore : ∀ xch ∈ script, xch.ignore = false) (haligned : Aligned xe q.1 q.2 script)
    (hordered : (emitDiffLoop xe xecfg fs script).Pairwise fun h h' => h.oldEnd ≤ h'.oldStart) :
    ∀ pair ∈ scriptBreaks xe xecfg script, ¬ Crosses xe xecfg pair.1 pair.2 := by
  induction hn : script.length using Nat.strong_induction_on generalizing script q fs with
  | _ n ih =>
    cases script with
    | nil => simp [scriptBreaks]
    | cons b script =>
      have hsplit := @hunkTail_splitsAt xe xecfg false (by simp) b script
      obtain ⟨func, fs', hloop⟩ := @emitDiffLoop_cons xe xecfg _ _ hignore fs
      rw [hloop] at hordered
      rw [scriptBreaks_cons]
      generalize (hunkTail xe xecfg false b script).1 = others at *
      generalize (hunkTail xe xecfg false b script).2 = rest at *
      obtain rfl := hsplit.append
      obtain ⟨hfirst, hordered⟩ := List.pairwise_cons.mp hordered
      have hafter := haligned.after_getLast
      have hignore' : ∀ xch ∈ rest, xch.ignore = false := fun x hx => hignore x (by simp [hx])
      have hlen : rest.length < n := by
        simp only [List.length_cons, List.length_append] at hn
        omega
      intro pair hpair
      rcases List.mem_append.mp hpair with hpair | hpair
      · cases rest with
        | nil => simp at hpair
        | cons next rest' =>
          obtain rfl : pair = _ := by simpa using hpair
          have hsep := (hsplit.next next rest' rfl).1
          obtain ⟨func', fs'', hloop'⟩ := @emitDiffLoop_cons xe xecfg _ _ hignore' fs'
          have hle := hfirst _ (by rw [hloop']; exact List.mem_cons_self)
          rw [(oldStart_makeHunk _).1, Hunk.oldEnd, (oldStart_makeHunk _).1] at hle
          rw [hsep.crosses_iff hafter, not_lt]
          refine le_trans ?_ hle
          simp only [makeHunk, emitHunkHdr]
          omega
      · exact ih rest.length hlen (q := (_, _)) fs' hignore' hafter hordered rfl pair hpair

lemma hunkBreaks_crosses {merged : Bool} {a : XdChange} {script : List XdChange}
    (hinter : xecfg.interhunkctxlen = 0) (haligned : Aligned xe a.end1 a.end2 script) :
    (∀ pair ∈ hunkBreaks xe xecfg merged a script, ¬ Crosses xe xecfg pair.1 pair.2) ↔
      (a :: script).IsChain fun a b => ¬ Crosses xe xecfg a b := by
  induction script generalizing merged a with
  | nil => simp [hunkBreaks]
  | cons next rest ih =>
    have hrest := haligned.2.2.2.2.2
    rw [hunkBreaks, List.isChain_cons_cons]
    split_ifs with hnear hover
    · have hnot : ¬ Crosses xe xecfg a next := fun hc => absurd hnear.2 (not_le.mpr (hc.distance_gt hinter))
      rw [ih hrest, and_iff_right hnot]
    · have hnot : ¬ Crosses xe xecfg a next := fun hc => by
        have := hc.not_overlapsNext haligned
        rw [hover.2] at this
        cases this
      rw [ih hrest, and_iff_right hnot]
    · rw [List.forall_mem_cons, ih hrest]

end Run

/-- The output of `xdl_emit_diff` is a diff of the two files just when no two neighbours that it
puts in different hunks cross. -/
theorem emitDiff_isDiff_iff (xe : XdfEnv) (xecfg : XdEmitConf)
    (h : SameLines xe.xdf1.unchanged xe.xdf2.unchanged) :
    (IsDiff xe (emitDiff xe xecfg (buildScript xe)) ↔
        ∀ pair ∈ scriptBreaks xe xecfg (buildScript xe), ¬ Crosses xe xecfg pair.1 pair.2) ∧
      (xecfg.interhunkctxlen = 0 → (IsDiff xe (emitDiff xe xecfg (buildScript xe)) ↔
        (buildScript xe).IsChain fun a b => ¬ Crosses xe xecfg a b)) := by
  have haligned := buildScript_aligned h
  have hignore := @buildScript_not_ignore xe
  generalize buildScript xe = script at *
  have hiff : IsDiff xe (emitDiff xe xecfg script) ↔
      ∀ pair ∈ scriptBreaks xe xecfg script, ¬ Crosses xe xecfg pair.1 pair.2 := by
    constructor
    · intro hdiff
      exact not_crosses_of_ordered (q := (0, 0)) _ hignore haligned (hdiff.ordered.imp And.left)
    · intro hbreaks
      have hfrom := emitDiffLoop_diffFrom (q := (0, 0)) ⟨-1, []⟩ hignore haligned
        (fun b _ => ⟨Nat.zero_le _, .inl rfl⟩) hbreaks
      obtain ⟨file, happly, hfile⟩ := hfrom.applies
      rw [slice_zero_nrec] at hfile
      exact ⟨hfrom.counts, hfrom.ordered, file, happly, hfile.sameLines, hfile.eq⟩
  refine ⟨hiff, fun hinter => hiff.trans ?_⟩
  cases script with
  | nil => simp [scriptBreaks]
  | cons b rest => exact hunkBreaks_crosses hinter haligned.2.2.2.2.2

section Example

/-- A line `f` is a function line, any other line is its body. -/
def exampleLine (c : UInt8) : XRecord := ⟨[c], c.toNat⟩

def exampleConf : XdEmitConf where
  ctxlen := 3
  interhunkctxlen := 0
  emitFuncnames := false
  emitFunccontext := true
  findFunc := some fun rec _ => if rec = [102] then some rec else none
  ctxlen_le := by decide
  interhunkctxlen_le := by decide

def exampleFile (body last : UInt8) (changed : List Bool) (h : changed.length = 11) : XdFile where
  recs := [102, body, 102, 120, 120, 120, 120, 120, 120, 102, last].map exampleLine
  changed := changed
  changed_length := h
  nrec_le := by simp [longMax]

def exampleEnv : XdfEnv where
  xdf1 := exampleFile 97 97 [false, true, false, false, false, false, false, false, false, false, true] rfl
  xdf2 := exampleFile 98 98 [false, true, false, false, false, false, false, false, false, false, true] rfl

/-- The second hunk starts at line 3, the first one ends behind line 4. -/
theorem emitDiff_overlaps : SameLines exampleEnv.xdf1.unchanged exampleEnv.xdf2.unchanged ∧
    ¬ IsDiff exampleEnv (emitDiff exampleEnv exampleConf (buildScript exampleEnv)) := by
  refine ⟨by decide, fun h => ?_⟩
  have hrun : ((emitDiff exampleEnv exampleConf (buildScript exampleEnv)).map
      fun h => (h.oldStart, h.oldEnd)) = [(0, 5), (3, 11)] := by decide +kernel
  have hordered := (List.pairwise_map (f := fun h : Hunk => (h.oldStart, h.oldEnd))
    (R := fun h h' : Nat × Nat => h.2 ≤ h'.1)).mpr (h.ordered.imp And.left)
  rw [hrun] at hordered
  exact absurd hordered (by decide)

theorem emitDiff_isDiff_plain :
    IsDiff exampleEnv (emitDiff exampleEnv { exampleConf with emitFunccontext := false }
      (buildScript exampleEnv)) := by
  refine (emitDiff_isDiff_iff exampleEnv { exampleConf with emitFunccontext := false } (by decide)).1.mpr ?_
  exact fun pair _ hc => absurd hc.1 (by decide)

end Example

end GitCore.Xdiff
