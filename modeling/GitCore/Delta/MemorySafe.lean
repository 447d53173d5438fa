import Mathlib.Data.List.GetD
import GitCore.Delta.Memory

/-!
# What the delta decoder touches

The header of the result is read without a look at the end of the delta, so a delta that is nothing but
the header of the source is read one byte too far. For every other delta all reads, copies and writes
stay inside their buffers.
-/

namespace GitCore.Delta.Memory

open Traced (Sound)

def announced (m : Machine) (delta : List UInt8) : Nat :=
  match (getDeltaHdrSize m delta 0).result with
  | .error _ => 0
  | .ok source =>
    match (getDeltaHdrSize m delta source.2).result with
    | .error _ => 0
    | .ok target => target.1

def Access.Inside (srcSize deltaSize size : Nat) : Access → Prop
  | .read index => index < deltaSize
  | .alloc n => n = size
  | .copySource dst offset len => offset + len ≤ srcSize ∧ dst + len ≤ size
  | .copyDelta dst offset len => offset + len ≤ deltaSize ∧ dst + len ≤ size

/-- The access puts `b` at index `k` of the result, from inside the source or the delta. -/
def Access.Supplies (src delta : List UInt8) (k : Nat) (b : UInt8) : Access → Prop
  | .copySource dst offset len => dst ≤ k ∧ k < dst + len ∧ src[offset + (k - dst)]? = some b
  | .copyDelta dst offset len => dst ≤ k ∧ k < dst + len ∧ delta[offset + (k - dst)]? = some b
  | _ => False

/-- Every byte of `out` was supplied by one of the accesses. -/
def Supplied (src delta : List UInt8) (log : List Access) (out : List UInt8) : Prop :=
  ∀ k b, out[k]? = some b → ∃ access ∈ log, access.Supplies src delta k b

/-- `patch_delta` stays inside its buffers and returns what was announced, copied from them. -/
structure Safe (m : Machine) (src delta : List UInt8) : Prop where
  inside : ∀ access ∈ (patchDelta m src delta).log, access.Inside src.length delta.length (announced m delta)
  result : ∀ out, (patchDelta m src delta).result = .ok out →
    out.length = announced m delta ∧ Supplied src delta (patchDelta m src delta).log out

/-- The delta is the header of the source alone: at least as long as the smallest delta, every byte
but the last one continued, and the size of the source for its value. -/
def HeaderAlone (m : Machine) (src delta : List UInt8) : Prop :=
  DELTA_SIZE_MIN ≤ delta.length ∧ (∀ b ∈ delta.dropLast, b.toNat &&& 0x80 ≠ 0) ∧
    (getDeltaHdrSize m delta 0).result.map Prod.fst = .ok src.length

variable {m : Machine} {src delta : List UInt8}

lemma stLeftShift_sound {P : Access → Prop} (a shift : Nat) : Sound P (fun _ _ => True) (stLeftShift m a shift) := by
  unfold stLeftShift
  split
  · split
    · exact Sound.fail
    · exact Sound.pure trivial
  · exact Sound.pure trivial

lemma readByte_sound {P : Access → Prop} {data : Nat} (h : P (.read data)) :
    Sound P (fun l b => l = [.read data] ∧ b = delta.getD data (m.beyond delta data)) (readByte m delta data) :=
  Sound.emit h ⟨rfl, rfl⟩

lemma getDeltaHdrSizeAux_sound {data : Nat} (i size : Nat) (hdata : data < delta.length) :
    Sound (fun access => ∃ index < delta.length, access = .read index)
      (fun _ r => data < r.2 ∧ r.2 ≤ delta.length) (getDeltaHdrSizeAux m delta data i size) := by
  induction hn : delta.length - data using Nat.strong_induction_on generalizing data i size with
  | _ n ih =>
    rw [getDeltaHdrSizeAux]
    refine (readByte_sound ⟨data, hdata, rfl⟩).bind fun _ cmd _ => ?_
    refine (stLeftShift_sound _ _).bind fun _ part _ => ?_
    split
    · next h =>
      have hrest := ih (delta.length - (data + 1)) (by omega) (i + 7) (size ||| part) h.2 rfl
      exact hrest.imp fun _ r hr => ⟨by omega, hr.2⟩
    · exact Sound.pure ⟨Nat.lt_succ_self data, hdata⟩

lemma getDeltaHdrSize_sound {data : Nat} (hdata : data < delta.length) :
    Sound (fun access => ∃ index < delta.length, access = .read index)
      (fun _ r => data < r.2 ∧ r.2 ≤ delta.length) (getDeltaHdrSize m delta data) :=
  getDeltaHdrSizeAux_sound 0 0 hdata

lemma read_mem_getDeltaHdrSize (data : Nat) : .read data ∈ (getDeltaHdrSize m delta data).log := by
  rw [getDeltaHdrSize, getDeltaHdrSizeAux]
  exact Traced.mem_bind_log (List.mem_singleton_self _)

lemma getDeltaHdrSizeAux_end_iff {data i size : Nat} (hdata : data < delta.length) {r : Nat × Nat}
    (h : (getDeltaHdrSizeAux m delta data i size).result = .ok r) :
    r.2 = delta.length ↔ ∀ b ∈ (delta.drop data).dropLast, b.toNat &&& 0x80 ≠ 0 := by
  induction hn : delta.length - data using Nat.strong_induction_on generalizing data i size with
  | _ n ih =>
    have hdrop : delta.drop data = delta.getD data (m.beyond delta data) :: delta.drop (data + 1) := by
      rw [List.drop_eq_getElem_cons hdata, List.getD_eq_getElem _ _ hdata]
    rw [getDeltaHdrSizeAux, readByte_bind] at h
    cases hpart : (stLeftShift m ((delta.getD data (m.beyond delta data)).toNat &&& 0x7f) i).result with
    | error e =>
      rw [Traced.bind_error hpart] at h
      cases h
    | ok part =>
      rw [Traced.bind_result_ok hpart] at h
      split at h
      · next hcond =>
        have hne : delta.drop (data + 1) ≠ [] := by
          rw [ne_eq, List.drop_eq_nil_iff]
          omega
        rw [ih _ (by omega) hcond.2 h rfl, hdrop, List.dropLast_cons_of_ne_nil hne]
        simp only [List.forall_mem_cons, hcond.1, ne_eq, not_false_eq_true, true_and]
      · next hcond =>
        rw [← Except.ok.inj h]
        rw [hdrop]
        by_cases hlast : data + 1 = delta.length
        · have hnil : delta.drop (data + 1) = [] := by
            rw [List.drop_eq_nil_iff]
            omega
          simp [hnil, hlast]
        · have hne : delta.drop (data + 1) ≠ [] := by
            rw [ne_eq, List.drop_eq_nil_iff]
            omega
          have hstop : (delta.getD data (m.beyond delta data)).toNat &&& 0x80 = 0 := by
            by_contra hbit
            exact hcond ⟨hbit, by omega⟩
          rw [List.dropLast_cons_of_ne_nil hne]
          simp only [List.forall_mem_cons, hstop, ne_eq, not_true_eq_false, false_and, iff_false]
          exact hlast

lemma getDeltaHdrSize_end_iff (hlen : 0 < delta.length) {r : Nat × Nat}
    (h : (getDeltaHdrSize m delta 0).result = .ok r) :
    r.2 = delta.length ↔ ∀ b ∈ delta.dropLast, b.toNat &&& 0x80 ≠ 0 :=
  getDeltaHdrSizeAux_end_iff hlen h

variable {size : Nat}

lemma parseCpParam_sound (cmd bit : UInt8) (shift : Nat) (p : Nat × Nat) (hp : p.2 ≤ delta.length) :
    Sound (Access.Inside src.length delta.length size) (fun l q => q.2 ≤ delta.length)
      (parseCpParam m delta cmd bit shift p) := by
  unfold parseCpParam
  split
  · split
    · exact Sound.fail
    · next hlt =>
      have hlt : p.2 < delta.length := not_le.mp hlt
      refine (readByte_sound hlt).bind fun _ b _ => ?_
      exact Sound.pure hlt
  · exact Sound.pure hp

lemma parseCpParams_sound (cmd : UInt8) (params : List (UInt8 × Nat)) (p : Nat × Nat) (hp : p.2 ≤ delta.length) :
    Sound (Access.Inside src.length delta.length size) (fun l q => q.2 ≤ delta.length)
      (parseCpParams m delta cmd params p) := by
  induction params generalizing p with
  | nil => exact Sound.pure hp
  | cons param params ih =>
    rw [parseCpParams]
    exact (parseCpParam_sound cmd param.1 param.2 p hp).bind fun _ q hq => ih q hq

/-- Invariant of the main loop: what is written and what is left make the announced size, and every
byte written was supplied. -/
structure LoopInv (src delta : List UInt8) (size : Nat) (log : List Access) (s : PatchState) : Prop where
  data : s.data ≤ delta.length
  size : s.out.length + s.size = size
  supplied : Supplied src delta log s.out

lemma bytes_length (m : Machine) (buf : List UInt8) (offset len : Nat) : (m.bytes buf offset len).length = len := by
  simp [Machine.bytes]

lemma bytes_getElem? {buf : List UInt8} {offset len k : Nat} {b : UInt8} (hin : offset + len ≤ buf.length)
    (h : (m.bytes buf offset len)[k]? = some b) : k < len ∧ buf[offset + k]? = some b := by
  have hk : k < len := by
    have hlt := (List.getElem?_eq_some_iff.mp h).choose
    rwa [bytes_length] at hlt
  have hbuf : offset + k < buf.length := by omega
  refine ⟨hk, ?_⟩
  rw [Machine.bytes, List.getElem?_map, List.getElem?_range' hk, Option.map_some, one_mul,
    List.getD_eq_getElem _ _ hbuf] at h
  rw [List.getElem?_eq_getElem hbuf, h]

lemma Supplied.append {log log' : List Access} {out new : List UInt8} (access : Access)
    (h : Supplied src delta log out) (hmem : access ∈ log')
    (hnew : ∀ k b, new[k]? = some b → access.Supplies src delta (out.length + k) b) :
    Supplied src delta (log ++ log') (out ++ new) := by
  intro k b hk
  rcases Nat.lt_or_ge k out.length with hlt | hge
  · rw [List.getElem?_append_left hlt] at hk
    obtain ⟨old, hold, hsup⟩ := h k b hk
    exact ⟨old, List.mem_append_left _ hold, hsup⟩
  · rw [List.getElem?_append_right hge] at hk
    refine ⟨access, List.mem_append_right _ hmem, ?_⟩
    have hsup := hnew _ b hk
    rwa [Nat.add_sub_cancel' hge] at hsup

lemma Supplied.mono {log log' : List Access} {out : List UInt8} (h : Supplied src delta log out) :
    Supplied src delta (log ++ log') out := by
  intro k b hk
  obtain ⟨access, hmem, hsup⟩ := h k b hk
  exact ⟨access, List.mem_append_left _ hmem, hsup⟩

lemma copyOp_sound (cmd : UInt8) {log : List Access} {s : PatchState} (h : LoopInv src delta size log s)
    (hdata : s.data < delta.length) :
    Sound (Access.Inside src.length delta.length size) (fun l s' => LoopInv src delta size (log ++ l) s')
      (copyOp m src delta cmd s) := by
  unfold copyOp
  refine (parseCpParams_sound cmd _ (0, s.data + 1) hdata).bind fun l₁ off hoff => ?_
  refine (parseCpParams_sound cmd _ (0, off.2) hoff).bind fun l₂ parsed hparsed => ?_
  dsimp only
  split
  · exact Sound.fail
  · next hcheck =>
    simp only [not_or, not_lt] at hcheck
    have hsize := h.size
    refine Sound.emit ⟨hcheck.2.1, by omega⟩ ⟨hparsed, ?_, ?_⟩
    · dsimp only
      rw [List.length_append, bytes_length]
      omega
    · refine Supplied.append (.copySource s.out.length off.1 (copySize parsed.1)) h.supplied (by simp) ?_
      intro k b hk
      have hbytes := bytes_getElem? hcheck.2.1 hk
      refine ⟨by omega, by omega, ?_⟩
      rw [Nat.add_sub_cancel_left]
      exact hbytes.2

lemma insertOp_sound (cmd : UInt8) {log : List Access} {s : PatchState} (h : LoopInv src delta size log s)
    (hdata : s.data < delta.length) :
    Sound (Access.Inside src.length delta.length size) (fun l s' => LoopInv src delta size (log ++ l) s')
      (insertOp m delta cmd s) := by
  unfold insertOp
  split
  · exact Sound.fail
  · next hcheck =>
    simp only [not_or, not_lt] at hcheck
    have hsize := h.size
    have hin : s.data + 1 + cmd.toNat ≤ delta.length := by omega
    refine Sound.emit ⟨hin, by omega⟩ ⟨hin, ?_, ?_⟩
    · dsimp only
      rw [List.length_append, bytes_length]
      omega
    · refine Supplied.append (.copyDelta s.out.length (s.data + 1) cmd.toNat) h.supplied (by simp) ?_
      intro k b hk
      have hbytes := bytes_getElem? hin hk
      refine ⟨by omega, by omega, ?_⟩
      rw [Nat.add_sub_cancel_left]
      exact hbytes.2

lemma LoopInv.mono {log log' : List Access} {s : PatchState} (h : LoopInv src delta size log s) :
    LoopInv src delta size (log ++ log') s :=
  ⟨h.data, h.size, h.supplied.mono⟩

lemma patchStep_sound {log : List Access} {s : PatchState} (h : LoopInv src delta size log s)
    (hdata : s.data < delta.length) :
    Sound (Access.Inside src.length delta.length size) (fun l s' => LoopInv src delta size (log ++ l) s')
      (patchStep m src delta s) := by
  unfold patchStep
  refine (readByte_sound hdata).bind fun l cmd _ => ?_
  have hl : LoopInv src delta size (log ++ l) s := h.mono
  simp only [← List.append_assoc]
  split
  · exact copyOp_sound cmd hl hdata
  split
  · exact insertOp_sound cmd hl hdata
  · exact Sound.fail

lemma patchLoop_sound {log : List Access} {s : PatchState} (h : LoopInv src delta size log s) :
    Sound (Access.Inside src.length delta.length size) (fun l s' => LoopInv src delta size (log ++ l) s')
      (patchLoop m src delta s) := by
  unfold patchLoop
  refine (Sound.whileDown (LoopInv src delta size) ?_ h).imp fun l s' hend => hend.1
  intro l s' hinv hcond
  exact patchStep_sound hinv (of_decide_eq_true hcond)

lemma announced_eq {source target : Nat × Nat} (hsource : (getDeltaHdrSize m delta 0).result = .ok source)
    (htarget : (getDeltaHdrSize m delta source.2).result = .ok target) : announced m delta = target.1 := by
  simp only [announced, hsource, htarget]

lemma xmallocz_sound {P : Access → Prop} (n : Nat) (h : P (.alloc n)) :
    Sound P (fun _ _ => True) (xmallocz m n) := by
  unfold xmallocz
  split
  · exact Sound.fail
  · exact Sound.emit h trivial

lemma inside_of_read {srcSize : Nat} (access : Access)
    (h : ∃ index < delta.length, access = .read index) : access.Inside srcSize delta.length size := by
  obtain ⟨index, hlt, rfl⟩ := h
  exact hlt

lemma lt_of_not_headerAlone (h : ¬HeaderAlone m src delta) (hmin : DELTA_SIZE_MIN ≤ delta.length)
    {source : Nat × Nat} (hsource : (getDeltaHdrSize m delta 0).result = .ok source) (hsize : source.1 = src.length)
    (hle : source.2 ≤ delta.length) : source.2 < delta.length := by
  refine lt_of_le_of_ne hle fun hend => h ⟨hmin, ?_, ?_⟩
  · exact (getDeltaHdrSize_end_iff (lt_of_lt_of_le (by decide) hmin) hsource).mp hend
  · rw [hsource, ← hsize]
    rfl

lemma patchDelta_sound (h : ¬HeaderAlone m src delta) :
    Sound (Access.Inside src.length delta.length (announced m delta))
      (fun l out => out.length = announced m delta ∧ Supplied src delta l out) (patchDelta m src delta) := by
  unfold patchDelta
  split
  · exact Sound.fail
  next hmin =>
  have hmin : DELTA_SIZE_MIN ≤ delta.length := not_lt.mp hmin
  have hpos : 0 < delta.length := lt_of_lt_of_le (by decide) hmin
  refine ((getDeltaHdrSize_sound hpos).weaken inside_of_read).named.bind fun l₁ source hsource => ?_
  split
  · exact Sound.fail
  next hsize =>
  have hlt := lt_of_not_headerAlone h hmin hsource.2 (not_not.mp hsize) hsource.1.2
  refine ((getDeltaHdrSize_sound hlt).weaken inside_of_read).named.bind fun l₂ target htarget => ?_
  have hann : announced m delta = target.1 := announced_eq hsource.2 htarget.2
  refine (xmallocz_sound target.1 hann.symm).bind fun l₃ _ _ => ?_
  have hstart : LoopInv src delta (announced m delta) (l₁ ++ (l₂ ++ l₃)) ⟨target.2, target.1, []⟩ := by
    refine ⟨htarget.1.2, by simp [hann], ?_⟩
    intro k b hk
    simp at hk
  refine (patchLoop_sound hstart).bind fun l₄ s hs => ?_
  split
  · exact Sound.fail
  next hdone =>
  simp only [not_or, not_not] at hdone
  have hlen := hs.size
  refine Sound.pure ⟨by omega, ?_⟩
  have hsup := hs.supplied
  simpa only [List.append_assoc, List.append_nil] using hsup

lemma read_mem_of_headerAlone (h : HeaderAlone m src delta) :
    .read delta.length ∈ (patchDelta m src delta).log := by
  obtain ⟨hmin, hcont, hvalue⟩ := h
  have hpos : 0 < delta.length := lt_of_lt_of_le (by decide) hmin
  cases hsource : (getDeltaHdrSize m delta 0).result with
  | error e =>
    rw [hsource] at hvalue
    cases hvalue
  | ok source =>
    rw [hsource] at hvalue
    have hsize : source.1 = src.length := Except.ok.inj hvalue
    have hend : source.2 = delta.length := (getDeltaHdrSize_end_iff hpos hsource).mpr hcont
    rw [patchDelta, if_neg (not_lt.mpr hmin), Traced.bind_ok hsource, if_neg (not_not.mpr hsize)]
    refine List.mem_append_right _ (Traced.mem_bind_log ?_)
    rw [hend]
    exact read_mem_getDeltaHdrSize delta.length

lemma not_safe_of_headerAlone (h : HeaderAlone m src delta) : ¬Safe m src delta := by
  intro hsafe
  have hinside := hsafe.inside _ (read_mem_of_headerAlone h)
  exact lt_irrefl delta.length hinside

/-- For every source and every delta the decoder stays inside its buffers and returns what was
announced, unless the delta is the header of the source alone. -/
theorem patchDelta_safe_iff (m : Machine) (src delta : List UInt8) :
    Safe m src delta ↔ ¬HeaderAlone m src delta := by
  constructor
  · intro hsafe halone
    exact not_safe_of_headerAlone halone hsafe
  · intro h
    have hsound := patchDelta_sound h
    exact ⟨hsound.log, hsound.result⟩

def zeroMachine : Machine where
  beyond := fun _ _ => 0
  shifted := fun _ _ => 0
  available := fun _ => true

/-- Four continued bytes are the size of an empty source and nothing else. -/
theorem patchDelta_reads_past_end : ¬Safe zeroMachine [] [0x80, 0x80, 0x80, 0x80] := by
  apply not_safe_of_headerAlone
  refine ⟨by decide, by simp, ?_⟩
  simp [getDeltaHdrSize, getDeltaHdrSizeAux, readByte, stLeftShift, zeroMachine, Traced.bind_ok, Except.map]

end GitCore.Delta.Memory
