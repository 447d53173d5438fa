import GitCore.Sideband.Model

/-!
# What a remote can write to the terminal

Masked text is complete: plain characters and whole sequences of the allowed classes. Two kinds
of band 3 packets get around the masking, and every run without them writes masked lines only.
-/

namespace GitCore.Sideband

open Terminal

def AllowedFinal (allow : AllowControlCharacters) (c : UInt8) : Prop :=
  allow.ansiColorSequences = true ∧ c = 109 ∨
  allow.ansiCursorMovements = true ∧ c ∈ ascii "ABCDEFGHf" ∨
  allow.ansiErase = true ∧ c ∈ ascii "JKMPX"

def Allowed (allow : AllowControlCharacters) (origin : Origin) (c : UInt8) : Prop :=
  match origin with
  | .own => c = 109 ∨ c = 75
  | .remote => AllowedFinal allow c

/-- A written text: complete, up to the line feed at its end or, on band 2, the line feed or
carriage return of the line. -/
def Masked (allow : AllowControlCharacters) (band : Option UInt8) (text : Strbuf) : Prop :=
  ∃ body origin lineEnd, text = body ++ [(origin, lineEnd)] ∧ Complete (Allowed allow) body ∧
    (lineEnd = 10 ∨ lineEnd = 13 ∧ band = some 2)

def CutSequence (src : List UInt8) : Prop :=
  ∃ before params rest, src = before ++ 27 :: 91 :: params ++ 0 :: rest ∧ 0 ∉ before ∧ ∀ p ∈ params, isParam p

/-- Classes whose letters are looked up with `strchr`. -/
def UsesStrchr (allow : AllowControlCharacters) : Prop :=
  allow.ansiCursorMovements = true ∨ allow.ansiErase = true

/-- The band 3 payloads that are masked: the white space that the colouring skips has no carriage
return, and where the letters of a class are looked up with `strchr` no sequence ends in a NUL. -/
def MaskedPayload (settings : Settings) (payload : List UInt8) : Prop :=
  ¬ (settings.colors = true ∧ 13 ∈ payload.takeWhile isSpace) ∧
  ¬ (UsesStrchr settings.allow ∧ CutSequence payload)

def Safe (settings : Settings) (call : Call) : Prop :=
  call.status ≠ .eof → call.dieOnError = false → ∀ payload, call.buf = 3 :: payload → MaskedPayload settings payload

section Letters

variable {allow : AllowControlCharacters} {c : UInt8}

lemma isPlain_of_allowed (origin : Origin) (final : UInt8) (h : Allowed allow origin final) : IsPlain final := by
  have hcursor : (ascii "ABCDEFGHf").all (fun d => isCntrl d = false) = true := by decide
  have herase : (ascii "JKMPX").all (fun d => isCntrl d = false) = true := by decide
  rw [List.all_eq_true] at hcursor herase
  cases origin with
  | own => rcases h with rfl | rfl <;> exact .inl (by decide)
  | remote =>
    rcases h with ⟨-, rfl⟩ | ⟨-, h⟩ | ⟨-, h⟩
    · exact .inl (by decide)
    · exact .inl (by simpa using hcursor final h)
    · exact .inl (by simpa using herase final h)

lemma isFinal_iff : isFinal allow c = true ↔
    AllowedFinal allow c ∨ UsesStrchr allow ∧ c = 0 := by
  simp only [isFinal, strchr, AllowedFinal, UsesStrchr, Bool.or_eq_true, Bool.and_eq_true, decide_eq_true_eq,
    List.contains_iff_mem]
  tauto

end Letters

section Sequences

variable {allow : AllowControlCharacters} {src : List UInt8}

def SequenceAt (allow : AllowControlCharacters) (src params : List UInt8) (final : UInt8) (rest : List UInt8) : Prop :=
  src = escapeSequence params final ++ rest ∧ (∀ p ∈ params, isParam p) ∧ isFinal allow final = true

lemma isParam_of_isFinal {c : UInt8} (h : isFinal allow c = true) : isParam c = false ∧ c ≠ 27 := by
  have hcursor : (ascii "ABCDEFGHf").all (fun d => isParam d = false ∧ d ≠ 27) = true := by decide
  have herase : (ascii "JKMPX").all (fun d => isParam d = false ∧ d ≠ 27) = true := by decide
  rw [List.all_eq_true] at hcursor herase
  rcases isFinal_iff.mp h with (⟨-, rfl⟩ | ⟨-, h⟩ | ⟨-, h⟩) | ⟨-, rfl⟩
  · decide
  · simpa using hcursor c h
  · simpa using herase c h
  · decide

lemma SequenceAt.params_unique {params params' rest rest' : List UInt8} {final final' : UInt8}
    (h : SequenceAt allow src params final rest) (h' : SequenceAt allow src params' final' rest') :
    params = params' ∧ final = final' ∧ rest = rest' := by
  obtain ⟨rfl, hparams, hfinal⟩ := h
  obtain ⟨heq, hparams', hfinal'⟩ := h'
  have heq : params ++ final :: rest = params' ++ final' :: rest' := by simpa [escapeSequence] using heq
  have htake {ps rs : List UInt8} {f : UInt8} (hps : ∀ p ∈ ps, isParam p) (hf : isFinal allow f = true) :
      (ps ++ f :: rs).takeWhile isParam = ps := by
    rw [List.takeWhile_append_of_pos hps, List.takeWhile_cons_of_neg (by simp [(isParam_of_isFinal hf).1]),
      List.append_nil]
  have hps : params = params' := by rw [← @htake _ rest _ hparams hfinal, heq, htake hparams' hfinal']
  subst hps
  simpa using heq

lemma findFinal_params {params rest : List UInt8} {final : UInt8} (hparams : ∀ p ∈ params, isParam p)
    (hfinal : isFinal allow final = true) (i : Nat) :
    findFinal allow (params ++ final :: rest) i = i + params.length := by
  induction params generalizing i with
  | nil => simp [findFinal, hfinal]
  | cons p params ih =>
    have hp := hparams p (by simp)
    have hnot : ¬ isFinal allow p = true := fun h => by simp [(isParam_of_isFinal h).1] at hp
    rw [List.cons_append, findFinal, if_neg hnot, if_pos (by simpa [isParam] using hp),
      ih (fun q hq => hparams q (by simp [hq])), List.length_cons]
    omega

lemma findFinal_spec {i : Nat} (h : findFinal allow src i ≠ 0) :
    ∃ params final rest, src = params ++ final :: rest ∧ (∀ p ∈ params, isParam p) ∧ isFinal allow final = true := by
  induction src generalizing i with
  | nil => exact absurd rfl h
  | cons c src ih =>
    rw [findFinal] at h
    split_ifs at h with hfinal hparam
    · exact ⟨[], c, src, rfl, by simp, hfinal⟩
    · obtain ⟨params, final, rest, rfl, hparams, hf⟩ := ih h
      refine ⟨c :: params, final, rest, rfl, fun p hp => ?_, hf⟩
      rcases List.mem_cons.mp hp with rfl | hp
      · simpa [isParam] using hparam
      · exact hparams p hp
    · exact absurd rfl h

lemma handleAnsiSequence_of_sequenceAt {dest : Strbuf} {params rest : List UInt8} {final : UInt8}
    (h : SequenceAt allow src params final rest) :
    handleAnsiSequence allow dest src = (dest ++ remote (escapeSequence params final), params.length + 2) := by
  obtain ⟨rfl, hparams, hfinal⟩ := h
  have hfind : findFinal allow ((escapeSequence params final ++ rest).drop 2) 2 = params.length + 1 + 1 := by
    have := @findFinal_params allow params rest final hparams hfinal 2
    rw [← Nat.add_comm 2, ← this]
    simp [escapeSequence]
  have htake : (escapeSequence params final ++ rest).take (params.length + 1 + 1 + 1) = escapeSequence params final := by
    rw [List.take_append_of_le_length (by simp [escapeSequence])]
    exact List.take_of_length_le (by simp [escapeSequence])
  unfold handleAnsiSequence
  rw [if_neg (by simp [escapeSequence]; omega), hfind]
  simp only [htake]

lemma handleAnsiSequence_eq_zero {dest : Strbuf} (h : ∀ params final rest, ¬ SequenceAt allow src params final rest) :
    handleAnsiSequence allow dest src = (dest, 0) := by
  unfold handleAnsiSequence
  split_ifs with hsrc
  · rfl
  · simp only [not_or, not_lt, not_not] at hsrc
    obtain ⟨-, h0, h1⟩ := hsrc
    obtain ⟨tail, rfl⟩ : ∃ tail, src = 27 :: 91 :: tail := by
      match src, h0, h1 with
      | c :: d :: tail, h0, h1 =>
        obtain rfl : c = 27 := by simpa using h0
        obtain rfl : d = 91 := by simpa using h1
        exact ⟨tail, rfl⟩
    have hzero : findFinal allow ((27 :: 91 :: tail).drop 2) 2 = 0 := by
      by_contra hne
      obtain ⟨params, final, rest, htail, hparams, hfinal⟩ := findFinal_spec hne
      refine h params final rest ⟨?_, hparams, hfinal⟩
      have htail : tail = params ++ final :: rest := htail
      rw [htail]
      simp [escapeSequence]
    simp only [hzero]

end Sequences

section Loop

variable {allow : AllowControlCharacters} {dest : Strbuf} {src : List UInt8}

def maskedByte (c : UInt8) : UInt8 := if c = 127 then 63 else 64 + c

inductive Round (allow : AllowControlCharacters) (dest : Strbuf) : List UInt8 → Prop
  | ends {rest : List UInt8} : addSanitized allow dest (0 :: rest) = dest → Round allow dest (0 :: rest)
  | plain {c : UInt8} {rest : List UInt8} : IsPlain c →
    addSanitized allow dest (c :: rest) = addSanitized allow (dest ++ remote [c]) rest → Round allow dest (c :: rest)
  | keeps {src params rest : List UInt8} {final : UInt8} : SequenceAt allow src params final rest →
    addSanitized allow dest src = addSanitized allow (dest ++ remote (escapeSequence params final)) rest →
    Round allow dest src
  | masks {c : UInt8} {rest : List UInt8} : c ≠ 0 → isCntrl c = true →
    (allow ≠ allowNoControlCharacters → ∀ params final rest', ¬ SequenceAt allow (c :: rest) params final rest') →
    addSanitized allow dest (c :: rest) = addSanitized allow (dest ++ remote [94, maskedByte c]) rest →
    Round allow dest (c :: rest)

lemma addSanitized_round (c : UInt8) (rest : List UInt8) : Round allow dest (c :: rest) := by
  by_cases h0 : c = 0
  · subst h0
    exact .ends (by simp [addSanitized])
  by_cases hplain : ¬ isCntrl c ∨ c = 9 ∨ c = 10
  · exact .plain (by simpa [IsPlain] using hplain) (by rw [addSanitized, if_neg h0, if_pos hplain])
  have hcntrl : isCntrl c = true := by simpa using (not_or.mp hplain).1
  by_cases hseq : allow ≠ allowNoControlCharacters ∧ ∃ params final rest', SequenceAt allow (c :: rest) params final rest'
  · obtain ⟨hallow, params, final, rest', hseq⟩ := hseq
    refine .keeps hseq ?_
    have hdrop : rest.drop (params.length + 2) = rest' := by
      rw [← List.drop_succ_cons (a := c), hseq.1, List.drop_append_of_le_length (by simp [escapeSequence])]
      simp [escapeSequence]
    rw [addSanitized, if_neg h0, if_neg hplain]
    simp only [if_pos hallow, handleAnsiSequence_of_sequenceAt hseq, hdrop]
    simp
  · refine .masks h0 hcntrl (fun hallow params final rest' h => hseq ⟨hallow, params, final, rest', h⟩) ?_
    have hzero : (if allow ≠ allowNoControlCharacters then handleAnsiSequence allow dest (c :: rest) else (dest, 0)) =
        (dest, 0) := by
      split_ifs with hallow
      · exact handleAnsiSequence_eq_zero fun params final rest' h => hseq ⟨hallow, params, final, rest', h⟩
      · rfl
    rw [addSanitized, if_neg h0, if_neg hplain]
    simp only [hzero, maskedByte]
    simp

lemma isPlain_ne_zero {c : UInt8} (h : IsPlain c) : c ≠ 0 := by
  rintro rfl
  exact absurd h (by simp [IsPlain, isCntrl])

lemma zero_notMem_sequence {params : List UInt8} {final : UInt8} (hparams : ∀ p ∈ params, isParam p)
    (hfinal : final ≠ 0) : 0 ∉ escapeSequence params final := by
  intro h
  simp only [escapeSequence, List.cons_append, List.mem_cons, List.mem_append, List.not_mem_nil, or_false] at h
  rcases h with h | h | h | h
  · exact absurd h (by decide)
  · exact absurd h (by decide)
  · exact isPlain_ne_zero (isPlain_of_isParam (hparams 0 h)) rfl
  · exact hfinal h.symm

lemma CutSequence.append {before : List UInt8} (h : CutSequence src) (hbefore : 0 ∉ before) :
    CutSequence (before ++ src) := by
  obtain ⟨before', params, rest, rfl, h0, hparams⟩ := h
  exact ⟨before ++ before', params, rest, by simp, by simp [hbefore, h0], hparams⟩

lemma CutSequence.cons {c : UInt8} (h : CutSequence src) (hc : c ≠ 0) : CutSequence (c :: src) :=
  @CutSequence.append src [c] h (by simpa using Ne.symm hc)

lemma isPlain_maskedByte {c : UInt8} (h : isCntrl c = true) : IsPlain (maskedByte c) := by
  unfold maskedByte
  split_ifs with hc
  · exact .inl (by decide)
  · refine .inl ?_
    have hlt : c < 32 := by simpa [isCntrl, hc] using h
    have hvalue : (32 : UInt8).toNat = 32 ∧ (127 : UInt8).toNat = 127 ∧ (64 : UInt8).toNat = 64 := by decide
    have hsum : (64 + c).toNat = 64 + c.toNat := by
      rw [UInt8.toNat_add, hvalue.2.2, Nat.mod_eq_of_lt]
      rw [UInt8.lt_iff_toNat_lt] at hlt
      omega
    simp only [isCntrl, Bool.or_eq_false_iff, decide_eq_false_iff_not, UInt8.lt_iff_toNat_lt, ← UInt8.toNat_inj,
      hsum] at hlt ⊢
    omega

lemma complete_addSanitized (hdest : Complete (Allowed allow) dest) (hsrc : ¬ (UsesStrchr allow ∧ CutSequence src)) :
    Complete (Allowed allow) (addSanitized allow dest src) := by
  induction hn : src.length using Nat.strong_induction_on generalizing src dest with
  | _ n ih =>
  cases src with
  | nil => simpa [addSanitized] using hdest
  | cons c rest =>
    cases @addSanitized_round allow dest c rest with
    | ends h => rwa [h]
    | plain hplain h =>
      rw [h]
      refine ih rest.length (by simp [← hn]) (hdest.append (complete_plain fun d hd => ?_)) (fun hslip =>
        hsrc ⟨hslip.1, hslip.2.cons (isPlain_ne_zero hplain)⟩) rfl
      obtain rfl : d = c := by simpa using hd
      exact hplain
    | @keeps _ params rest' final hseq h =>
      obtain ⟨heq, hparams, hfinal⟩ := hseq
      have hlen : rest'.length < n := by
        rw [← hn, heq]
        simp [escapeSequence]
        omega
      rw [h]
      rw [heq] at hsrc
      rcases isFinal_iff.mp hfinal with hfinal | ⟨huse, rfl⟩
      · have h0 := zero_notMem_sequence hparams (isPlain_ne_zero (isPlain_of_allowed .remote final hfinal))
        exact ih rest'.length hlen (hdest.append (complete_sequence hparams hfinal))
          (fun hslip => hsrc ⟨hslip.1, hslip.2.append h0⟩) rfl
      · exact absurd ⟨huse, [], params, rest', by simp [escapeSequence], by simp, hparams⟩ hsrc
    | masks h0 hcntrl _ h =>
      rw [h]
      refine ih rest.length (by simp [← hn]) (hdest.append (complete_plain fun d hd => ?_)) (fun hslip =>
        hsrc ⟨hslip.1, hslip.2.cons h0⟩) rfl
      simp only [List.mem_cons, List.not_mem_nil, or_false] at hd
      rcases hd with rfl | rfl
      · exact .inl (by decide)
      · exact isPlain_maskedByte hcntrl

lemma prefix_addSanitized : dest <+: addSanitized allow dest src := by
  induction hn : src.length using Nat.strong_induction_on generalizing src dest with
  | _ n ih =>
  cases src with
  | nil => simp [addSanitized]
  | cons c rest =>
    cases @addSanitized_round allow dest c rest with
    | ends h => rw [h]
    | plain _ h =>
      rw [h]
      exact (List.prefix_append _ _).trans (ih rest.length (by simp [← hn]) rfl)
    | @keeps _ params rest' final hseq h =>
      have hlen : rest'.length < n := by
        rw [← hn, hseq.1]
        simp [escapeSequence]
        omega
      rw [h]
      exact (List.prefix_append _ _).trans (ih rest'.length hlen rfl)
    | masks _ _ _ h =>
      rw [h]
      exact (List.prefix_append _ _).trans (ih rest.length (by simp [← hn]) rfl)

lemma SequenceAt.before_escape {c final : UInt8} {before params rest after : List UInt8}
    (h : SequenceAt allow (c :: before ++ 27 :: after) params final rest) :
    ∃ before', rest = before' ++ 27 :: after ∧ before' <:+ before := by
  obtain ⟨heq, hparams, hfinal⟩ := h
  have heq : before ++ 27 :: after = (91 :: params ++ [final]) ++ rest := by
    simpa [escapeSequence] using (List.cons_eq_cons.mp heq).2
  have hnone : (27 : UInt8) ∉ 91 :: params ++ [final] := by
    intro h
    simp only [List.cons_append, List.mem_cons, List.mem_append, List.not_mem_nil, or_false] at h
    rcases h with h | h | h
    · exact absurd h (by decide)
    · exact absurd (hparams 27 h) (by decide)
    · exact (isParam_of_isFinal hfinal).2 h.symm
  rcases List.append_eq_append_iff.mp heq with ⟨m, hm, hrest⟩ | ⟨m, hm, hrest⟩
  · cases m with
    | nil => exact ⟨[], by simpa using hrest.symm, List.nil_suffix⟩
    | cons d m =>
      obtain rfl : 27 = d := (List.cons_eq_cons.mp hrest).1
      exact absurd (by simp [hm]) hnone
  · exact ⟨m, hrest, 91 :: params ++ [final], hm.symm⟩

lemma zero_mem_addSanitized (huse : UsesStrchr allow) (hcut : CutSequence src) :
    (.remote, 0) ∈ addSanitized allow dest src := by
  have hzero : isFinal allow 0 = true := isFinal_iff.mpr (.inr ⟨huse, rfl⟩)
  have hallow : allow ≠ allowNoControlCharacters := by
    rintro rfl
    simp [UsesStrchr, allowNoControlCharacters] at huse
  obtain ⟨before, params, rest, rfl, h0, hparams⟩ := hcut
  have hcut : SequenceAt allow (27 :: 91 :: params ++ 0 :: rest) params 0 rest :=
    ⟨by simp [escapeSequence], hparams, hzero⟩
  induction hn : before.length using Nat.strong_induction_on generalizing before dest with
  | _ n ih =>
  cases before with
  | nil =>
    cases @addSanitized_round allow dest 27 (91 :: params ++ 0 :: rest) with
    | plain hplain => exact absurd hplain (by simp [IsPlain, isCntrl])
    | @keeps _ params' rest' final hseq h =>
      obtain ⟨rfl, rfl, rfl⟩ := hcut.params_unique hseq
      rw [List.nil_append]
      refine h ▸ prefix_addSanitized.subset ?_
      simp [remote, tagged, escapeSequence]
    | masks _ _ hnone => exact absurd hcut (hnone hallow _ _ _)
  | cons c before =>
    have hc : c ≠ 0 := fun h => h0 (by simp [h])
    have h0' : 0 ∉ before := fun h => h0 (by simp [h])
    have hlen : before.length < n := by simp [← hn]
    have hround := @addSanitized_round allow dest c (before ++ 27 :: 91 :: params ++ 0 :: rest)
    rw [List.cons_append, List.cons_append]
    generalize hrest : before ++ 27 :: 91 :: params ++ 0 :: rest = tail at hround
    cases hround with
    | ends => exact absurd rfl hc
    | plain _ h =>
      rw [h, ← hrest]
      exact ih before.length hlen before h0' rfl
    | @keeps _ params' rest' final hseq h =>
      rw [h]
      have hseq' : SequenceAt allow (c :: before ++ 27 :: (91 :: params ++ 0 :: rest)) params' final rest' := by
        simpa [← hrest] using hseq
      obtain ⟨before', rfl, hsuf⟩ := hseq'.before_escape
      have := @ih before'.length (hsuf.length_le.trans_lt hlen) (dest ++ remote (escapeSequence params' final)) before' (fun h => h0' (hsuf.subset h)) rfl
      simpa using this
    | masks _ _ _ h =>
      rw [h, ← hrest]
      exact ih before.length hlen before h0' rfl

end Loop

end GitCore.Sideband
