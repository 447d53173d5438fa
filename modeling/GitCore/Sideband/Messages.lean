import GitCore.Sideband.Sanitized
import Mathlib.Data.List.TakeWhile

/-!
# Every message of a run is masked

One lemma for each way that a call adds to its buffer, then the calls of a run: their writes are
masked exactly when all band 3 packets can be masked.
-/

namespace GitCore.Sideband

open Terminal

variable {settings : Settings} {dest scratch : Strbuf} {src : List UInt8}

section Colors

lemma CutSequence.of_append {before : List UInt8} (h : CutSequence (before ++ src)) (hbefore : 27 ∉ before) :
    CutSequence src := by
  obtain ⟨before', params, rest, heq, h0, hparams⟩ := h
  have heq : before ++ src = before' ++ 27 :: (91 :: params ++ 0 :: rest) := by simpa using heq
  rcases List.append_eq_append_iff.mp heq with ⟨m, rfl, hsrc⟩ | ⟨m, rfl, hsrc⟩
  · exact ⟨m, params, rest, by simpa using hsrc, fun h => h0 (by simp [h]), hparams⟩
  · cases m with
    | nil => exact ⟨[], params, rest, by simpa using hsrc.symm, by simp, hparams⟩
    | cons d m =>
      obtain rfl : 27 = d := (List.cons_eq_cons.mp hsrc).1
      simp at hbefore

lemma complete_color (allow : AllowControlCharacters) (color : Color) : Complete (Allowed allow) (own color.bytes) := by
  cases color with
  | normal => exact .nil
  | ansi params hparams => exact complete_sequence hparams (.inl rfl)

lemma isSpace_iff {c : UInt8} : isSpace c = true ↔ c = 32 ∨ c = 9 ∨ c = 10 ∨ c = 13 := by
  simp [isSpace, or_assoc]

lemma isPlain_of_toLower {c : UInt8} (h : 97 ≤ toLower c ∧ toLower c ≤ 122) : IsPlain c ∧ c ≠ 27 := by
  have hvalue : (65 : UInt8).toNat = 65 ∧ (90 : UInt8).toNat = 90 ∧ (97 : UInt8).toNat = 97 ∧
    (122 : UInt8).toNat = 122 ∧ (32 : UInt8).toNat = 32 ∧ (127 : UInt8).toNat = 127 ∧ (27 : UInt8).toNat = 27 := by
    decide
  have hbounds : 65 ≤ c.toNat ∧ c.toNat ≤ 122 := by
    unfold toLower at h
    split_ifs at h with hc
    · simp only [UInt8.le_iff_toNat_le] at hc
      omega
    · simp only [UInt8.le_iff_toNat_le] at h
      omega
  refine ⟨.inl ?_, fun hc => ?_⟩
  · simp only [isCntrl, Bool.or_eq_false_iff, decide_eq_false_iff_not, UInt8.lt_iff_toNat_lt, ← UInt8.toNat_inj]
    omega
  · have := congrArg UInt8.toNat hc
    omega

lemma Keyword.letters {p : Keyword} (h : p.startsLine src = true) {c : UInt8}
    (hc : c ∈ src.take p.keyword.length) : IsPlain c ∧ c ≠ 27 := by
  simp only [Keyword.startsLine, Bool.and_eq_true, decide_eq_true_eq] at h
  have hmem : toLower c ∈ p.keyword.map toLower := by
    rw [← h.1.2]
    exact List.mem_map_of_mem hc
  have hletters : (p.keyword.map toLower).all (fun d => 97 ≤ d ∧ d ≤ 122) = true := by
    cases p <;> decide
  rw [List.all_eq_true] at hletters
  exact isPlain_of_toLower (by simpa using hletters _ hmem)

variable (settings dest src) in
lemma maybeColorizeSideband_split (hcolors : settings.colors = true) :
    ∃ colored word rest, src = src.takeWhile isSpace ++ word ++ rest ∧ (∀ c ∈ word, IsPlain c ∧ c ≠ 27) ∧
      Complete (Allowed settings.allow) colored ∧
      maybeColorizeSideband settings dest src =
        strbufAddSanitized settings.allow (dest ++ remote (src.takeWhile isSpace) ++ colored) rest := by
  have hsplit := (List.takeWhile_append_dropWhile (p := isSpace) (l := src)).symm
  unfold maybeColorizeSideband
  rw [if_neg (by simp [hcolors])]
  simp only
  split
  · next p hfind =>
    have hstart : p.startsLine (src.dropWhile isSpace) = true := List.find?_some (p := fun q : Keyword => q.startsLine _) hfind
    refine ⟨own (settings.color p).bytes ++ remote ((src.dropWhile isSpace).take p.keyword.length) ++
        own gitColorReset, (src.dropWhile isSpace).take p.keyword.length,
      (src.dropWhile isSpace).drop p.keyword.length, ?_, fun c hc => p.letters hstart hc, ?_, ?_⟩
    · rw [List.append_assoc, List.take_append_drop]
      exact hsplit
    · exact ((complete_color _ _).append (complete_plain fun c hc => (p.letters hstart hc).1)).append
        (complete_sequence (by simp) (.inl rfl))
    · simp only [List.append_assoc]
  · exact ⟨[], [], src.dropWhile isSpace, by simp, by simp, .nil, by simp⟩

lemma mem_takeWhile_isSpace {c : UInt8} (hc : c ∈ src.takeWhile isSpace) : c = 13 ∨ IsPlain c ∧ c ≠ 27 := by
  rcases isSpace_iff.mp (List.mem_takeWhile_imp hc) with rfl | rfl | rfl | rfl
  · exact .inr ⟨.inl (by decide), by decide⟩
  · exact .inr ⟨.inr (.inl rfl), by decide⟩
  · exact .inr ⟨.inr (.inr rfl), by decide⟩
  · exact .inl rfl

lemma complete_maybeColorize_iff (hallow : settings.allow.allControlCharacters = false)
    (hdest : Complete (Allowed settings.allow) dest) :
    Complete (Allowed settings.allow) (maybeColorizeSideband settings dest src) ↔ MaskedPayload settings src := by
  have hbad {text : Strbuf} {c : UInt8} (hcntrl : ¬ IsPlain c ∧ c ≠ 27) (hc : (.remote, c) ∈ text) :
      ¬ Complete (Allowed settings.allow) text := fun h =>
    (h.bytes isPlain_of_allowed hc).elim hcntrl.1 hcntrl.2
  have hzero : ¬ IsPlain 0 ∧ (0 : UInt8) ≠ 27 := by simp [IsPlain, isCntrl]
  by_cases hcolors : settings.colors = true
  · obtain ⟨colored, word, rest, hsrc, hword, hcolored, heq⟩ := maybeColorizeSideband_split settings dest src hcolors
    rw [heq, strbufAddSanitized, if_neg (by simp [hallow])]
    have h27 : 27 ∉ src.takeWhile isSpace ++ word := by
      intro h
      rcases List.mem_append.mp h with h | h
      · exact (mem_takeWhile_isSpace h).elim (by decide) (fun h => h.2 rfl)
      · exact (hword 27 h).2 rfl
    have h0 : 0 ∉ src.takeWhile isSpace ++ word := by
      intro h
      rcases List.mem_append.mp h with h | h
      · exact (mem_takeWhile_isSpace h).elim (by decide) (fun h => hzero.1 h.1)
      · exact hzero.1 (hword 0 h).1
    have hcut : CutSequence src ↔ CutSequence rest :=
      ⟨fun h => (hsrc ▸ h).of_append h27, fun h => hsrc ▸ h.append h0⟩
    constructor
    · refine fun h => ⟨fun hcr => hbad (c := 13) (by simp [IsPlain, isCntrl]) ?_ h,
        fun hslip => hbad hzero (zero_mem_addSanitized hslip.1 (hcut.mp hslip.2)) h⟩
      exact prefix_addSanitized.subset (by simp [remote, tagged, hcr.2])
    · refine fun h => complete_addSanitized ((hdest.append (complete_plain fun c hc => ?_)).append hcolored)
        fun hslip => h.2 ⟨hslip.1, hcut.mpr hslip.2⟩
      exact (mem_takeWhile_isSpace hc).elim (fun h13 => absurd ⟨hcolors, h13 ▸ hc⟩ h.1) And.left
  · have heq : maybeColorizeSideband settings dest src = addSanitized settings.allow dest src := by
      simp [maybeColorizeSideband, hcolors, strbufAddSanitized, hallow]
    rw [heq]
    exact ⟨fun h => ⟨fun hc => hcolors hc.1, fun hc => hbad hzero (zero_mem_addSanitized hc.1 hc.2) h⟩,
      fun h => complete_addSanitized hdest h.2⟩

end Colors

section Lines

lemma complete_plainText (allow : AllowControlCharacters) {s : List UInt8} (h : ∀ c ∈ s, isCntrl c = false) :
    Complete (Allowed allow) (own s) :=
  complete_plain fun c hc => .inl (h c hc)

lemma complete_linePrefix : Complete (Allowed settings.allow) (own (linePrefix settings)) := by
  have hremote : ∀ c ∈ displayPrefix, isCntrl c = false := by
    have hall : displayPrefix.all (fun c => isCntrl c = false) = true := by decide
    simpa using List.all_eq_true.mp hall
  unfold linePrefix
  split_ifs
  · rw [own, tagged_append]
    exact (complete_sequence (by simp) (.inr rfl)).append (complete_plainText _ hremote)
  · exact complete_plainText _ hremote

lemma complete_lineSuffix : Complete (Allowed settings.allow) (own (lineSuffix settings)) := by
  unfold lineSuffix
  split_ifs
  · exact .nil
  · refine complete_plainText _ ?_
    have hall : (ascii "        ").all (fun c => isCntrl c = false) = true := by decide
    simpa using List.all_eq_true.mp hall

lemma maskedPayload_of_line (h0 : 0 ∉ src) (hline : ∀ c ∈ src, isLineEnd c = false) : MaskedPayload settings src := by
  refine ⟨fun ⟨_, hcr⟩ => ?_, fun ⟨_, before, params, rest, hsrc, _⟩ => h0 (by simp [hsrc])⟩
  exact absurd (hline 13 ((List.takeWhile_prefix _).subset hcr)) (by decide)

def lineText (settings : Settings) (scratch : Strbuf) (line : List UInt8) : Strbuf :=
  let scratch := if scratch ≠ [] ∧ line = [] then scratch ++ own (lineSuffix settings) else scratch
  let scratch := if scratch = [] then own (linePrefix settings) else scratch
  if line ≠ [] then maybeColorizeSideband settings scratch line ++ own (lineSuffix settings) else scratch

lemma progressLines_last (hline : ∀ c ∈ src, isLineEnd c = false) :
    progressLines settings scratch src =
      ([], if src ≠ [] then maybeColorizeSideband settings (if scratch = [] then own (linePrefix settings) else scratch) src
        else scratch) := by
  have hdrop : src.dropWhile (fun c => decide ¬ isLineEnd c) = [] :=
    List.dropWhile_eq_nil_iff.mpr fun c hc => by simp [hline c hc]
  rw [progressLines]
  split
  · split_ifs <;> rfl
  · next hcons => rw [hdrop] at hcons; cases hcons

lemma progressLines_line {line rest : List UInt8} {brk : UInt8} (hline : ∀ c ∈ line, isLineEnd c = false)
    (hbrk : isLineEnd brk = true) :
    progressLines settings scratch (line ++ brk :: rest) =
      ((lineText settings scratch line ++ remote [brk]) :: (progressLines settings [] rest).1,
        (progressLines settings [] rest).2) := by
  have hline' : ∀ c ∈ line, decide (¬ isLineEnd c) = true := fun c hc => by simp [hline c hc]
  have hdrop : (line ++ brk :: rest).dropWhile (fun c => decide ¬ isLineEnd c) = brk :: rest := by
    rw [List.dropWhile_append_of_pos hline', List.dropWhile_cons_of_neg (by simp [hbrk])]
  have htake : (line ++ brk :: rest).takeWhile (fun c => decide ¬ isLineEnd c) = line := by
    rw [List.takeWhile_append_of_pos hline', List.takeWhile_cons_of_neg (by simp [hbrk]), List.append_nil]
  rw [progressLines]
  split
  · next hnil => rw [hdrop] at hnil; cases hnil
  · next hcons =>
    rw [hdrop] at hcons
    obtain ⟨rfl, rfl⟩ := List.cons_eq_cons.mp hcons
    simp only [htake, lineText]

lemma exists_line (src : List UInt8) :
    (∀ c ∈ src, isLineEnd c = false) ∨ ∃ line brk rest, src = line ++ brk :: rest ∧
      (∀ c ∈ line, isLineEnd c = false) ∧ isLineEnd brk = true := by
  induction src with
  | nil => exact .inl (by simp)
  | cons c src ih =>
    by_cases hc : isLineEnd c = true
    · exact .inr ⟨[], c, src, rfl, by simp, hc⟩
    · rcases ih with ih | ⟨line, brk, rest, rfl, hline, hbrk⟩
      · exact .inl (by simpa using ⟨by simpa using hc, ih⟩)
      · exact .inr ⟨c :: line, brk, rest, rfl, by simpa using ⟨by simpa using hc, hline⟩, hbrk⟩

lemma complete_fresh (hscratch : Complete (Allowed settings.allow) scratch) :
    Complete (Allowed settings.allow) (if scratch = [] then own (linePrefix settings) else scratch) := by
  split_ifs
  · exact complete_linePrefix
  · exact hscratch

lemma complete_lineText (hallow : settings.allow.allControlCharacters = false)
    (hscratch : Complete (Allowed settings.allow) scratch) (h0 : 0 ∉ src) (hline : ∀ c ∈ src, isLineEnd c = false) :
    Complete (Allowed settings.allow) (lineText settings scratch src) := by
  have hsuffixed : Complete (Allowed settings.allow)
      (if scratch ≠ [] ∧ src = [] then scratch ++ own (lineSuffix settings) else scratch) := by
    split_ifs
    · exact hscratch.append complete_lineSuffix
    · exact hscratch
  have hfresh := complete_fresh hsuffixed
  unfold lineText
  simp only
  by_cases hsrc : src ≠ []
  · rw [if_pos hsrc]
    exact ((complete_maybeColorize_iff hallow hfresh).mpr (maskedPayload_of_line h0 hline)).append complete_lineSuffix
  · rw [if_neg hsrc]
    exact hfresh

lemma progressLines_masked (hallow : settings.allow.allControlCharacters = false)
    (hscratch : Complete (Allowed settings.allow) scratch) (h0 : 0 ∉ src) :
    (∀ text ∈ (progressLines settings scratch src).1, Masked settings.allow (some 2) text) ∧
      Complete (Allowed settings.allow) (progressLines settings scratch src).2 := by
  induction hn : src.length using Nat.strong_induction_on generalizing src scratch with
  | _ n ih =>
  rcases exists_line src with hline | ⟨line, brk, rest, rfl, hline, hbrk⟩
  · rw [progressLines_last hline]
    refine ⟨by simp, ?_⟩
    by_cases hsrc : src ≠ []
    · rw [if_pos hsrc]
      exact (complete_maybeColorize_iff hallow (complete_fresh hscratch)).mpr (maskedPayload_of_line h0 hline)
    · rw [if_neg hsrc]
      exact hscratch
  · have hlen : rest.length < n := by
      rw [← hn, List.length_append, List.length_cons]
      omega
    obtain ⟨hwritten, hleft⟩ := ih rest.length hlen .nil (fun h => h0 (by simp [h])) rfl
    rw [progressLines_line hline hbrk]
    refine ⟨fun text htext => ?_, hleft⟩
    rcases List.mem_cons.mp htext with rfl | htext
    · have hbrk : brk = 10 ∨ brk = 13 := by simpa [isLineEnd] using hbrk
      exact ⟨_, .remote, brk, rfl, complete_lineText hallow hscratch (fun h => h0 (by simp [h])) hline,
        hbrk.imp_right fun h => ⟨h, rfl⟩⟩
    · exact hwritten text htext

end Lines

section Calls

variable {band : Option UInt8} {dieOnError : Bool} {type : SidebandType}

lemma masked_newline {body : Strbuf} (h : Complete (Allowed settings.allow) body) :
    Masked settings.allow band (body ++ own [10]) :=
  ⟨body, .own, 10, rfl, h, .inl rfl⟩

lemma dieMessage_masked (message : Strbuf) : Masked settings.allow band (dieMessage message) := by
  have hfatal : ∀ c ∈ ascii "fatal: ", isCntrl c = false := by
    have hall : (ascii "fatal: ").all (fun c => isCntrl c = false) = true := by decide
    simpa using List.all_eq_true.mp hall
  have hshown (msg : Strbuf) : Complete (Allowed settings.allow)
      (msg.map fun p => (p.1, if isCntrl p.2 ∧ p.2 ≠ 9 ∧ p.2 ≠ 10 then 63 else p.2)) := by
    induction msg with
    | nil => exact .nil
    | cons p msg ih =>
      refine .plain ?_ ih
      split_ifs with hc
      · exact .inl (by decide)
      · simp only [IsPlain]
        grind
  exact masked_newline ((complete_plainText _ hfatal).append (hshown _))

lemma cleanup_masked (hscratch : Complete (Allowed settings.allow) scratch) :
    (∀ text ∈ (cleanup dieOnError type scratch).written, Masked settings.allow band text) ∧
      Complete (Allowed settings.allow) (cleanup dieOnError type scratch).scratch := by
  unfold cleanup
  split_ifs
  · exact ⟨by simpa using dieMessage_masked _, hscratch⟩
  · exact ⟨by simpa using masked_newline hscratch, .nil⟩
  · exact ⟨by simp, .nil⟩

lemma complete_message (hscratch : Complete (Allowed settings.allow) scratch) (me : ProgramName) {s : List UInt8}
    (hs : ∀ c ∈ s, isCntrl c = false) :
    Complete (Allowed settings.allow) (scratch ++ newLine scratch ++ own (me.bytes ++ s)) := by
  refine (hscratch.append ?_).append (complete_plainText _ fun c hc => ?_)
  · unfold newLine
    split_ifs
    · exact complete_plain (by simp [IsPlain])
    · exact .nil
  · exact (List.mem_append.mp hc).elim (me.plain c) (hs c)

lemma decimal_plain (n c : UInt8) (hc : c ∈ decimal n) : isCntrl c = false := by
  unfold decimal at hc
  split_ifs at hc
  · obtain rfl : c = 48 := by simpa using hc
    decide
  · obtain ⟨d, hd, rfl⟩ := List.mem_map.mp hc
    have hlt : d < 10 := Nat.digits_lt_base (by decide) (List.mem_reverse.mp hd)
    have hvalue : (UInt8.ofNat (48 + d)).toNat = 48 + d := by
      rw [UInt8.toNat_ofNat']
      omega
    have hbounds : (32 : UInt8).toNat = 32 ∧ (127 : UInt8).toNat = 127 := by decide
    simp only [isCntrl, Bool.or_eq_false_iff, decide_eq_false_iff_not, UInt8.lt_iff_toNat_lt, ← UInt8.toNat_inj,
      hvalue]
    omega

lemma protocolError_masked (hscratch : Complete (Allowed settings.allow) scratch) (me : ProgramName) {s : List UInt8}
    (hs : s.all (fun c => isCntrl c = false) = true) :
    (∀ text ∈ (cleanup dieOnError type (scratch ++ newLine scratch ++ own (me.bytes ++ s))).written,
      Masked settings.allow band text) ∧
      Complete (Allowed settings.allow)
        (cleanup dieOnError type (scratch ++ newLine scratch ++ own (me.bytes ++ s))).scratch :=
  cleanup_masked (complete_message hscratch me (by simpa using List.all_eq_true.mp hs))

lemma complete_remoteError (hscratch : Complete (Allowed settings.allow) scratch) :
    Complete (Allowed settings.allow) (scratch ++ newLine scratch ++ own (linePrefix settings)) := by
  refine (hscratch.append ?_).append complete_linePrefix
  unfold newLine
  split_ifs
  · exact complete_plain (by simp [IsPlain])
  · exact .nil

lemma remoteError_masked_iff (hallow : settings.allow.allControlCharacters = false)
    (hdest : Complete (Allowed settings.allow) dest) :
    ((∀ text ∈ (cleanup false .remoteError (maybeColorizeSideband settings dest src)).written,
      Masked settings.allow band text) ↔ MaskedPayload settings src) ∧
      Complete (Allowed settings.allow) (cleanup false .remoteError (maybeColorizeSideband settings dest src)).scratch := by
  have hiff := @complete_maybeColorize_iff settings dest src hallow hdest
  refine ⟨⟨fun h => hiff.mp ?_, fun h => (cleanup_masked (hiff.mpr h)).1⟩, ?_⟩
  · by_cases hnil : maybeColorizeSideband settings dest src = []
    · rw [hnil]
      exact .nil
    · obtain ⟨body, origin, lineEnd, heq, hbody, -⟩ :=
        h (maybeColorizeSideband settings dest src ++ own [10]) (by simp [cleanup, hnil])
      rwa [(List.append_inj' heq rfl).1]
  · unfold cleanup
    rw [if_neg (by simp)]
    split_ifs <;> exact .nil

lemma demultiplexSideband_masked_iff (hallow : settings.allow.allControlCharacters = false)
    (hscratch : Complete (Allowed settings.allow) scratch) (call : Call) :
    ((∀ text ∈ (demultiplexSideband settings scratch call).written, Masked settings.allow call.buf.head? text) ↔
      Safe settings call) ∧ Complete (Allowed settings.allow) (demultiplexSideband settings scratch call).scratch := by
  have hsafe {outcome : Outcome} (hcall : Safe settings call)
      (h : (∀ text ∈ outcome.written, Masked settings.allow call.buf.head? text) ∧
        Complete (Allowed settings.allow) outcome.scratch) :
      ((∀ text ∈ outcome.written, Masked settings.allow call.buf.head? text) ↔ Safe settings call) ∧
        Complete (Allowed settings.allow) outcome.scratch :=
    ⟨iff_of_true h.1 hcall, h.2⟩
  obtain ⟨me, status, buf, dieOnError⟩ := call
  unfold demultiplexSideband
  simp only at hsafe ⊢
  by_cases heof : status = .eof
  · rw [if_pos heof]
    exact hsafe (fun h => absurd heof h) (protocolError_masked hscratch me (by decide))
  rw [if_neg heof]
  cases buf with
  | nil =>
    have hcall : Safe settings ⟨me, status, [], dieOnError⟩ := fun _ _ payload h => by cases h
    simp only
    by_cases hnormal : status = .normal
    · rw [if_pos hnormal]
      exact hsafe hcall (protocolError_masked hscratch me (by decide))
    · rw [if_neg hnormal]
      exact hsafe hcall (cleanup_masked hscratch)
  | cons band payload =>
    simp only
    by_cases h3 : band = 3
    · subst h3
      rw [if_pos rfl]
      cases dieOnError with
      | true => exact hsafe (fun _ h => by cases h) ⟨by simpa using dieMessage_masked _, hscratch⟩
      | false =>
        obtain ⟨hiff, hleft⟩ := @remoteError_masked_iff settings _ payload (some 3) hallow (complete_remoteError hscratch)
        refine ⟨hiff.trans ⟨fun h _ _ payload' hbuf => ?_, fun h => h heof rfl payload rfl⟩, hleft⟩
        obtain rfl : payload = payload' := (List.cons_eq_cons.mp hbuf).2
        exact h
    have hcall : Safe settings ⟨me, status, band :: payload, dieOnError⟩ := fun _ _ payload' h =>
      absurd (List.cons_eq_cons.mp h).1 h3
    rw [if_neg h3]
    by_cases h2 : band = 2
    · subst h2
      rw [if_pos rfl]
      have hnul : 0 ∉ payload.takeWhile (· ≠ 0) := fun h => by
        simpa using List.mem_takeWhile_imp (p := fun c : UInt8 => decide (c ≠ 0)) h
      exact hsafe hcall (progressLines_masked hallow hscratch hnul)
    rw [if_neg h2]
    by_cases h1 : band = 1
    · rw [if_pos h1]
      exact hsafe hcall ⟨by simp, hscratch⟩
    · rw [if_neg h1]
      refine hsafe hcall (cleanup_masked ?_)
      rw [List.append_assoc me.bytes]
      refine complete_message hscratch me fun c hc => ?_
      rcases List.mem_append.mp hc with hc | hc
      · have hall : (ascii ": protocol error: bad band #").all (fun c => isCntrl c = false) = true := by decide
        simpa using List.all_eq_true.mp hall c hc
      · exact decimal_plain band c hc

end Calls

lemma receive_masked_iff_of_complete (hallow : settings.allow.allControlCharacters = false)
    (hscratch : Complete (Allowed settings.allow) scratch) (calls : List Call) :
    (∀ p ∈ receive settings scratch calls, ∀ text ∈ p.2.written, Masked settings.allow p.1.buf.head? text) ↔
      ∀ p ∈ receive settings scratch calls, Safe settings p.1 := by
  induction calls generalizing scratch with
  | nil => simp [receive]
  | cons call calls ih =>
    obtain ⟨hiff, hleft⟩ := demultiplexSideband_masked_iff hallow hscratch call
    rw [receive, List.forall_mem_cons, List.forall_mem_cons]
    refine and_congr hiff ?_
    split_ifs
    · simp
    · exact ih hleft

/-- Everything that the calls for a sequence of packets write to standard error is masked exactly
when they get no band 3 packet with one of the two kinds of payload that get around the masking. -/
theorem receive_masked_iff (settings : Settings) (hallow : settings.allow.allControlCharacters = false)
    (calls : List Call) :
    (∀ p ∈ receive settings [] calls, ∀ text ∈ p.2.written, Masked settings.allow p.1.buf.head? text) ↔
      ∀ p ∈ receive settings [] calls, Safe settings p.1 :=
  receive_masked_iff_of_complete hallow .nil calls

section Example

def exampleSettings (allow : AllowControlCharacters) (colors : Bool) : Settings :=
  ⟨allow, colors, fun _ => .normal, true⟩

def exampleCall (buf : List UInt8) : Call :=
  ⟨⟨ascii "git", by
    have hall : (ascii "git").all (fun c => isCntrl c = false) = true := by decide
    simpa using List.all_eq_true.mp hall⟩, .normal, buf, false⟩

theorem receive_masked_iff_color :
    (∀ p ∈ receive (exampleSettings ⟨true, false, false, false⟩ true) [] [exampleCall (3 :: ascii "\x1b[31mred")],
      ∀ text ∈ p.2.written, Masked ⟨true, false, false, false⟩ p.1.buf.head? text) ∧
    ascii "\x1b[31mred" ≠ [] := by
  refine ⟨(receive_masked_iff (exampleSettings ⟨true, false, false, false⟩ true) rfl _).mpr
    fun p hp _ _ payload hbuf => ?_, by decide⟩
  have hcall : p.1 = exampleCall (3 :: ascii "\x1b[31mred") := by
    simp only [receive, ite_self, List.mem_singleton] at hp
    rw [hp]
  rw [hcall] at hbuf
  obtain rfl : ascii "\x1b[31mred" = payload := (List.cons_eq_cons.mp hbuf).2
  exact ⟨fun h => absurd h.2 (by decide), fun h => by simp [UsesStrchr, exampleSettings] at h⟩

/-- Where only cursor movements are allowed, `ESC [ NUL 31m` on band 3 is written as it is. -/
theorem receive_not_masked :
    ∃ p ∈ receive (exampleSettings ⟨false, true, false, false⟩ false) []
        [exampleCall (3 :: 27 :: 91 :: 0 :: ascii "31mred")],
      ∃ text ∈ p.2.written, ¬ Masked ⟨false, true, false, false⟩ p.1.buf.head? text := by
  have hcut : CutSequence (27 :: 91 :: 0 :: ascii "31mred") := ⟨[], [], _, rfl, by simp, by simp⟩
  have hiff := (@demultiplexSideband_masked_iff (exampleSettings ⟨false, true, false, false⟩ false) [] rfl .nil
    (exampleCall (3 :: 27 :: 91 :: 0 :: ascii "31mred"))).1
  have hnot := hiff.not.mpr fun h => (h (by decide) rfl _ rfl).2 ⟨.inl rfl, hcut⟩
  push Not at hnot
  exact ⟨_, List.mem_cons_self, hnot⟩

end Example

end GitCore.Sideband
