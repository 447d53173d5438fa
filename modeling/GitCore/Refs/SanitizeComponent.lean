import GitCore.Refs.Format

/-!
# A component of a ref name

What the walk over one component does: without a buffer it accepts the components that follow the rules, and
with one it appends a component that follows them.
-/

namespace GitCore.Refname

lemma disposition_lt (n : Nat) (hn : n < 256) :
    (disposition (UInt8.ofNat n) = 1 ↔ UInt8.ofNat n = 0 ∨ UInt8.ofNat n = slash) ∧
    (disposition (UInt8.ofNat n) = 2 ↔ UInt8.ofNat n = period) ∧ disposition (UInt8.ofNat n) ≤ 5 := by
  revert n
  decide +kernel

lemma disposition_eq_one {ch : UInt8} : disposition ch = 1 ↔ ch = 0 ∨ ch = slash := by
  simpa using (disposition_lt ch.toNat ch.toNat_lt).1

lemma disposition_eq_two {ch : UInt8} : disposition ch = 2 ↔ ch = period := by
  simpa using (disposition_lt ch.toNat ch.toNat_lt).2.1

lemma disposition_le (ch : UInt8) : disposition ch ≤ 5 := by
  simpa using (disposition_lt ch.toNat ch.toNat_lt).2.2

def fixChar (last ch : UInt8) : UInt8 :=
  if disposition ch = 4 ∨ disposition ch = 5 ∨ (disposition ch = 3 ∧ last = atSign) then dash else ch

def scanned (last : UInt8) : List UInt8 → List UInt8
  | [] => []
  | ch :: rest => (if ch = period ∧ last = period then [] else [fixChar last ch]) ++ scanned ch rest

def Clean (last : UInt8) : List UInt8 → Prop
  | [] => True
  | ch :: rest => ¬(ch = period ∧ last = period) ∧ fixChar last ch = ch ∧ Clean ch rest

def IsPart (part : List UInt8) : Prop := ∀ ch ∈ part, disposition ch ≠ 1

lemma IsPart.cons_iff {ch : UInt8} {part : List UInt8} : IsPart (ch :: part) ↔ disposition ch ≠ 1 ∧ IsPart part := by
  simp [IsPart]

def EndsPart (rest : List UInt8) : Prop := ∀ ch, rest.head? = some ch → disposition ch = 1

lemma fixChar_eq_or (last ch : UInt8) : fixChar last ch = dash ∨ fixChar last ch = ch := by
  rw [fixChar]
  split <;> simp

lemma scanComponent_cons_some {ch : UInt8} (hch : disposition ch ≠ 1) (last : UInt8) (buf rest : List UInt8) :
    scanComponent REFNAME_ALLOW_ONELEVEL last (some buf) (ch :: rest) =
      (scanComponent REFNAME_ALLOW_ONELEVEL ch
        (some (buf ++ if ch = period ∧ last = period then [] else [fixChar last ch])) rest).bind
          fun r => some (r.1 + 1, r.2) := by
  have hle := disposition_le ch
  have htwo := @disposition_eq_two ch
  have hdash : dashLast (buf ++ [ch]) = buf ++ [dash] := by simp [dashLast]
  rw [scanComponent, if_neg hch]
  interval_cases hd : disposition ch
  · simp [fixChar, hd, mt htwo.mpr (by norm_num)]
  · exact absurd rfl hch
  · obtain rfl := htwo.mp rfl
    by_cases hlast : last = period <;> simp [repair, fixChar, hd, hlast]
  · by_cases hlast : last = atSign <;> simp [repair, fixChar, hd, hlast, hdash, mt htwo.mpr (by norm_num)]
  · simp [repair, fixChar, hd, hdash, mt htwo.mpr (by norm_num)]
  · simp [repair, fixChar, hd, hdash, mt htwo.mpr (by norm_num), REFNAME_ALLOW_ONELEVEL]

lemma scanComponent_cons_none {ch : UInt8} (hch : disposition ch ≠ 1) (last : UInt8) (rest : List UInt8) :
    scanComponent REFNAME_ALLOW_ONELEVEL last none (ch :: rest) =
      if ¬(ch = period ∧ last = period) ∧ fixChar last ch = ch then
        (scanComponent REFNAME_ALLOW_ONELEVEL ch none rest).bind fun r => some (r.1 + 1, r.2)
      else none := by
  have hle := disposition_le ch
  have htwo := @disposition_eq_two ch
  have hdash : disposition ch ≠ 0 → dash ≠ ch := fun h hd => h (by rw [← hd]; decide)
  rw [scanComponent, if_neg hch]
  interval_cases hd : disposition ch
  · simp [fixChar, hd, mt htwo.mpr (by norm_num)]
  · exact absurd rfl hch
  · obtain rfl := htwo.mp rfl
    by_cases hlast : last = period <;> simp [repair, fixChar, hd, hlast]
  · by_cases hlast : last = atSign <;>
      simp [repair, fixChar, hd, hlast, hdash, mt htwo.mpr (by norm_num)]
  · simp [repair, fixChar, hd, hdash]
  · simp [repair, fixChar, hd, hdash, REFNAME_ALLOW_ONELEVEL]

lemma scanComponent_end {rest : List UInt8} (hrest : EndsPart rest) (last : UInt8) (sanitized : Option (List UInt8)) :
    scanComponent REFNAME_ALLOW_ONELEVEL last sanitized rest = some (0, REFNAME_ALLOW_ONELEVEL, sanitized) := by
  cases rest with
  | nil => rfl
  | cons ch rest => rw [scanComponent, if_pos (hrest ch rfl)]

lemma scanComponent_some (part rest buf : List UInt8) (last : UInt8) (hpart : IsPart part) (hrest : EndsPart rest) :
    scanComponent REFNAME_ALLOW_ONELEVEL last (some buf) (part ++ rest) =
      some (part.length, REFNAME_ALLOW_ONELEVEL, some (buf ++ scanned last part)) := by
  induction part generalizing last buf with
  | nil => rw [List.nil_append, scanComponent_end hrest, scanned, List.append_nil, List.length_nil]
  | cons ch part ih =>
    rw [IsPart.cons_iff] at hpart
    rw [List.cons_append, scanComponent_cons_some hpart.1, ih _ ch hpart.2, scanned, List.append_assoc]
    rfl

lemma scanComponent_none (part rest : List UInt8) (last : UInt8) (hpart : IsPart part) (hrest : EndsPart rest) :
    (scanComponent REFNAME_ALLOW_ONELEVEL last none (part ++ rest) =
      some (part.length, REFNAME_ALLOW_ONELEVEL, none) ∧ Clean last part) ∨
    (scanComponent REFNAME_ALLOW_ONELEVEL last none (part ++ rest) = none ∧ ¬Clean last part) := by
  induction part generalizing last with
  | nil => exact .inl ⟨by rw [List.nil_append, scanComponent_end hrest]; rfl, trivial⟩
  | cons ch part ih =>
    rw [IsPart.cons_iff] at hpart
    rw [List.cons_append, scanComponent_cons_none hpart.1]
    by_cases hok : ¬(ch = period ∧ last = period) ∧ fixChar last ch = ch
    · rw [if_pos hok]
      rcases ih ch hpart.2 with ⟨hscan, hclean⟩ | ⟨hscan, hclean⟩
      · exact .inl ⟨by rw [hscan]; rfl, hok.1, hok.2, hclean⟩
      · exact .inr ⟨by rw [hscan]; rfl, fun h => hclean h.2.2⟩
    · rw [if_neg hok]
      exact .inr ⟨rfl, fun h => hok ⟨h.1, h.2.1⟩⟩

variable {last : UInt8}

lemma scanned_of_clean {part : List UInt8} (h : Clean last part) : scanned last part = part := by
  induction part generalizing last with
  | nil => rfl
  | cons ch part ih => rw [scanned, if_neg h.1, h.2.1, ih h.2.2, List.singleton_append]

lemma clean_scanned {last last' : UInt8} (part : List UInt8) (hperiod : last' = period → last = period)
    (hat : last' = atSign → last = atSign) : Clean last' (scanned last part) := by
  induction part generalizing last last' with
  | nil => trivial
  | cons ch part ih =>
    rw [scanned]
    by_cases hskip : ch = period ∧ last = period
    · rw [if_pos hskip, List.nil_append]
      refine ih (fun _ => hskip.1) fun h => ?_
      have := hat h
      rw [hskip.2] at this
      exact absurd this (by decide)
    · rw [if_neg hskip, List.singleton_append]
      have hfix := fixChar_eq_or last ch
      have hdash : disposition dash = 0 := by decide
      refine ⟨fun h => hskip ⟨?_, hperiod h.2⟩, ?_, ih (fun h => ?_) fun h => ?_⟩
      · rcases hfix with hfix | hfix
        · exact absurd (hfix ▸ h.1) (by decide)
        · rw [← hfix, h.1]
      · rcases hfix with hfix | hfix
        · rw [hfix, fixChar, if_neg (by simp [hdash])]
        · rw [hfix]
          by_cases hch : ch = dash
          · rw [hch, fixChar, if_neg (by simp [hdash])]
          · rw [fixChar] at hfix ⊢
            grind
      · rcases hfix with hfix | hfix
        · exact absurd (hfix ▸ h) (by decide)
        · rw [← hfix, h]
      · rcases hfix with hfix | hfix
        · exact absurd (hfix ▸ h) (by decide)
        · rw [← hfix, h]

variable {part rest : List UInt8}

lemma Clean.left (h : Clean last (part ++ rest)) : Clean last part := by
  induction part generalizing last with
  | nil => trivial
  | cons ch part ih => exact ⟨h.1, h.2.1, ih h.2.2⟩

lemma Clean.not_period_period :
    ¬Clean last (part ++ period :: period :: rest) := by
  induction part generalizing last with
  | nil => exact fun h => h.2.2.1 ⟨rfl, rfl⟩
  | cons ch part ih => exact fun h => ih h.2.2

lemma isPart_scanned (last : UInt8) {part : List UInt8} (h : IsPart part) : IsPart (scanned last part) := by
  induction part generalizing last with
  | nil => simpa [scanned] using h
  | cons ch part ih =>
    rw [IsPart.cons_iff] at h
    intro c hc
    rw [scanned, List.mem_append] at hc
    rcases hc with hc | hc
    · split at hc
      · simp at hc
      · rw [List.mem_singleton.mp hc]
        rcases fixChar_eq_or last ch with hfix | hfix
        · rw [hfix]
          decide
        · rw [hfix]
          exact h.1
    · exact ih ch h.2 c hc

lemma scanned_eq_cons {last x : UInt8} {part tail : List UInt8} (h : scanned last part = x :: tail) (hdash : x ≠ dash) :
    ∃ n rest, part = List.replicate n period ++ x :: rest ∧ scanned x rest = tail ∧ (last ≠ period → n = 0) := by
  induction part generalizing last with
  | nil => simp [scanned] at h
  | cons ch part ih =>
    rw [scanned] at h
    by_cases hskip : ch = period ∧ last = period
    · rw [if_pos hskip, List.nil_append] at h
      obtain ⟨n, rest, rfl, hrest, -⟩ := ih h
      exact ⟨n + 1, rest, by rw [hskip.1, List.replicate_succ, List.cons_append], hrest, fun hne => absurd hskip.2 hne⟩
    · rw [if_neg hskip, List.singleton_append, List.cons.injEq] at h
      have hch : ch = x := by
        rcases fixChar_eq_or last ch with hfix | hfix
        · exact absurd (h.1.symm.trans hfix) hdash
        · rw [← hfix, h.1]
      exact ⟨0, part, by rw [hch]; rfl, by rw [← hch, h.2], fun _ => rfl⟩

def lockBlock (n : Nat) : List UInt8 := List.replicate (n + 1) period ++ LOCK_SUFFIX.tail

lemma scanned_eq_lock {part tail : List UInt8} (h : scanned last part = LOCK_SUFFIX ++ tail) :
    ∃ n rest, part = lockBlock n ++ rest ∧ scanned 0x6b rest = tail := by
  obtain ⟨n₁, rest₁, rfl, h₁, -⟩ := scanned_eq_cons h (by decide)
  obtain ⟨n₂, rest₂, rfl, h₂, -⟩ := scanned_eq_cons h₁ (by decide)
  obtain ⟨n₃, rest₃, rfl, h₃, hn₃⟩ := scanned_eq_cons h₂ (by decide)
  obtain ⟨n₄, rest₄, rfl, h₄, hn₄⟩ := scanned_eq_cons h₃ (by decide)
  obtain ⟨n₅, rest₅, rfl, h₅, hn₅⟩ := scanned_eq_cons h₄ (by decide)
  obtain rfl := hn₃ (by decide)
  obtain rfl := hn₄ (by decide)
  obtain rfl := hn₅ (by decide)
  refine ⟨n₁ + n₂, rest₅, ?_, h₅⟩
  have hdots : List.replicate (n₁ + n₂ + 1) period = List.replicate n₁ period ++ period :: List.replicate n₂ period := by
    rw [Nat.add_assoc, List.replicate_add, List.replicate_succ]
  rw [lockBlock, hdots]
  simp [LOCK_SUFFIX, period]

lemma scanned_append (last : UInt8) (part rest : List UInt8) :
    scanned last (part ++ rest) = scanned last part ++ scanned (part.getLastD last) rest := by
  induction part generalizing last with
  | nil => rfl
  | cons ch part ih => rw [List.cons_append, scanned, scanned, ih, List.append_assoc, List.getLastD_cons]

lemma getLast?_scanned (last : UInt8) (part : List UInt8) :
    (scanned last part).getLast? = some period ↔
      part.getLast? = some period ∧ (last = period → ∃ ch ∈ part, ch ≠ period) := by
  induction part using List.reverseRecOn with
  | nil => simp [scanned]
  | append_singleton part ch ih =>
    rw [scanned_append, scanned, scanned, List.append_nil]
    by_cases hskip : ch = period ∧ part.getLastD last = period
    · rw [if_pos hskip, List.append_nil, ih, hskip.1]
      cases part using List.reverseRecOn with
      | nil =>
        have hlast : last = period := hskip.2
        simp [hlast]
      | append_singleton part c =>
        have hc : c = period := by simpa using hskip.2
        simp [hc]
    · rw [if_neg hskip]
      have hfix : fixChar (part.getLastD last) ch = period ↔ ch = period := by
        constructor
        · intro h
          rcases fixChar_eq_or (part.getLastD last) ch with hfix | hfix
          · exact absurd (hfix.symm.trans h) (by decide)
          · rw [← hfix, h]
        · rintro rfl
          rw [fixChar, if_neg (by simp [disposition_eq_two.mpr rfl])]
      simp only [List.getLast?_append, List.getLast?_singleton, Option.some_or, Option.some_inj, hfix]
      constructor
      · rintro rfl
        refine ⟨rfl, fun hlast => ?_⟩
        cases part using List.reverseRecOn with
        | nil => exact absurd ⟨rfl, hlast⟩ hskip
        | append_singleton part c => exact ⟨c, by simp, fun hc => hskip ⟨rfl, by simpa using hc⟩⟩
      · exact fun h => h.1

def fixed : List UInt8 → List UInt8
  | [] => []
  | ch :: rest => (if ch = period then dash else fixChar 0 ch) :: scanned ch rest

def cleaned (part : List UInt8) : List UInt8 := stripLock (fixed part)

structure ValidPart (part : List UInt8) : Prop where
  nonempty : part ≠ []
  clean : Clean 0 part
  start : part.head? ≠ some period
  lock : ¬LOCK_SUFFIX <:+ part

lemma fixed_eq (part : List UInt8) :
    fixed part = if part.head? = some period then (scanned 0 part).set 0 dash else scanned 0 part := by
  cases part with
  | nil => rfl
  | cons ch part =>
    have hzero : ¬(ch = period ∧ (0 : UInt8) = period) := fun h => absurd h.2 (by decide)
    rw [fixed, scanned, if_neg hzero]
    by_cases hch : ch = period <;> simp [hch]

variable {part : List UInt8}

lemma head_fixed_ne : (fixed part).head? ≠ some period := by
  cases part with
  | nil => simp [fixed]
  | cons ch part =>
    rw [fixed, List.head?_cons, Ne, Option.some_inj]
    split
    · decide
    · rename_i hch
      rcases fixChar_eq_or 0 ch with hfix | hfix
      · rw [hfix]
        decide
      · rwa [hfix]

lemma clean_fixed (part : List UInt8) : Clean 0 (fixed part) := by
  cases part with
  | nil => trivial
  | cons ch part =>
    rw [fixed]
    by_cases hch : ch = period
    · rw [if_pos hch]
      exact ⟨by decide, by decide, clean_scanned part (fun h => absurd h (by decide)) fun h => absurd h (by decide)⟩
    · have hscan := @clean_scanned 0 0 (ch :: part) id id
      rw [scanned, if_neg fun h => hch h.1] at hscan
      rw [if_neg hch]
      exact hscan

lemma isPart_fixed (h : IsPart part) : IsPart (fixed part) := by
  rw [fixed_eq]
  split
  · intro c hc
    rcases List.mem_or_eq_of_mem_set hc with hc | rfl
    · exact isPart_scanned 0 h c hc
    · decide
  · exact isPart_scanned 0 h

lemma LOCK_SUFFIX_ne : LOCK_SUFFIX ≠ [] := by simp [LOCK_SUFFIX]

lemma stripLock_of_not {buf : List UInt8} (h : ¬LOCK_SUFFIX <:+ buf) : stripLock buf = buf := by
  rw [stripLock, if_neg h]

lemma stripLock_append_lock (front : List UInt8) : stripLock (front ++ LOCK_SUFFIX) = stripLock front := by
  rw [stripLock, if_pos (List.suffix_append _ _), List.length_append, Nat.add_sub_cancel, List.take_left']
  rfl

lemma stripLock_spec (buf : List UInt8) :
    ∃ k, buf = stripLock buf ++ (List.replicate k LOCK_SUFFIX).flatten ∧ ¬LOCK_SUFFIX <:+ stripLock buf := by
  induction buf using stripLock.induct with
  | case1 buf hlock ih =>
    obtain ⟨front, rfl⟩ := hlock
    rw [List.length_append, Nat.add_sub_cancel, List.take_left' rfl] at ih
    obtain ⟨k, hk, hnot⟩ := ih
    rw [stripLock_append_lock]
    refine ⟨k + 1, ?_, hnot⟩
    rw [List.replicate_succ', List.flatten_append, ← List.append_assoc, ← hk]
    simp
  | case2 buf hlock =>
    rw [stripLock_of_not hlock]
    exact ⟨0, by simp, hlock⟩

lemma lock_suffix_append {buf part : List UInt8} (hbuf : ∀ c, buf.getLast? = some c → c = slash) :
    LOCK_SUFFIX <:+ buf ++ part ↔ LOCK_SUFFIX <:+ part := by
  constructor
  · intro h
    by_cases hlen : LOCK_SUFFIX.length ≤ part.length
    · exact List.suffix_of_suffix_length_le h (List.suffix_append _ _) hlen
    · obtain ⟨front, hfront⟩ := List.suffix_of_suffix_length_le (List.suffix_append buf part) h (by omega)
      have hfront_ne : front ≠ [] := by
        rintro rfl
        rw [List.nil_append] at hfront
        exact hlen (by rw [hfront])
      rw [← hfront] at h
      obtain ⟨start, hstart⟩ := h
      rw [← List.append_assoc] at hstart
      have hbuf_eq : buf = start ++ front := (List.append_cancel_right hstart).symm
      have hlast := hbuf (front.getLast hfront_ne) (by
        rw [hbuf_eq, List.getLast?_append, List.getLast?_eq_some_getLast hfront_ne, Option.some_or])
      have hmem : slash ∈ LOCK_SUFFIX := by
        rw [← hfront, ← hlast]
        exact List.mem_append_left _ (List.getLast_mem hfront_ne)
      exact absurd hmem (by decide)
  · exact fun h => h.trans (List.suffix_append _ _)

lemma stripLock_append {buf part : List UInt8} (hbuf : ∀ c, buf.getLast? = some c → c = slash) :
    stripLock (buf ++ part) = buf ++ stripLock part := by
  induction part using stripLock.induct with
  | case1 part hlock ih =>
    obtain ⟨front, rfl⟩ := hlock
    rw [List.length_append, Nat.add_sub_cancel, List.take_left' rfl] at ih
    rw [← List.append_assoc, stripLock_append_lock, stripLock_append_lock, ih]
  | case2 part hlock =>
    rw [stripLock_of_not hlock, stripLock_of_not (mt (lock_suffix_append hbuf).mp hlock)]

lemma scanned_eq_append {part front tail : List UInt8} (h : scanned last part = front ++ tail)
    (hne : tail ≠ []) : ∃ last' rest, rest <:+ part ∧ scanned last' rest = tail := by
  induction part generalizing last front with
  | nil =>
    rw [scanned, List.nil_eq, List.append_eq_nil_iff] at h
    exact absurd h.2 hne
  | cons ch part ih =>
    cases front with
    | nil => exact ⟨last, ch :: part, List.suffix_rfl, h⟩
    | cons x front =>
      rw [scanned] at h
      have hrest : ∃ front', scanned ch part = front' ++ tail := by
        split at h
        · exact ⟨x :: front, h⟩
        · rw [List.singleton_append, List.cons_append, List.cons.injEq] at h
          exact ⟨front, h.2⟩
      obtain ⟨front', hfront⟩ := hrest
      obtain ⟨last', rest, hrest, hscan⟩ := ih hfront
      exact ⟨last', rest, hrest.trans (List.suffix_cons ch part), hscan⟩

lemma lock_suffix_lockBlock (n : Nat) : LOCK_SUFFIX <:+ lockBlock n := by
  refine ⟨List.replicate n period, ?_⟩
  rw [lockBlock, List.replicate_succ', List.append_assoc]
  rfl

lemma lock_of_fixed (h : LOCK_SUFFIX <:+ fixed part) : LOCK_SUFFIX <:+ part := by
  cases part with
  | nil => exact h
  | cons ch part =>
    rw [fixed, List.suffix_cons_iff] at h
    rcases h with h | ⟨front, hfront⟩
    · have hhead := @head_fixed_ne (ch :: part)
      rw [fixed, ← h] at hhead
      exact absurd rfl hhead
    · obtain ⟨last, rest, hrest, hscan⟩ := scanned_eq_append hfront.symm LOCK_SUFFIX_ne
      rw [← List.append_nil LOCK_SUFFIX] at hscan
      obtain ⟨n, rest', rfl, hnil⟩ := scanned_eq_lock hscan
      have hrest' : rest' = [] := by
        cases rest' with
        | nil => rfl
        | cons c rest' =>
          rw [scanned, if_neg (fun h => absurd h.2 (by decide))] at hnil
          simp at hnil
      rw [hrest', List.append_nil] at hrest
      exact (lock_suffix_lockBlock n).trans (hrest.trans (List.suffix_cons ch part))

lemma cleaned_eq (part : List UInt8) :
    cleaned part = if LOCK_SUFFIX <:+ part then stripLock (fixed part) else fixed part := by
  split
  · rfl
  · rename_i h
    exact stripLock_of_not (mt lock_of_fixed h)

lemma fixed_ne_nil (h : part ≠ []) : fixed part ≠ [] := by
  cases part with
  | nil => exact absurd rfl h
  | cons ch part => simp [fixed]

lemma fixed_eq_cleaned (part : List UInt8) :
    ∃ k, fixed part = cleaned part ++ (List.replicate k LOCK_SUFFIX).flatten ∧ ¬LOCK_SUFFIX <:+ cleaned part :=
  stripLock_spec (fixed part)

lemma validPart_cleaned (h : part ≠ []) : ValidPart (cleaned part) := by
  obtain ⟨k, hk, hnot⟩ := fixed_eq_cleaned part
  have hhead := @head_fixed_ne part
  have hne : cleaned part ≠ [] := by
    intro hnil
    rw [hnil, List.nil_append] at hk
    have hfixed := fixed_ne_nil h
    cases k with
    | zero => exact hfixed hk
    | succ k =>
      rw [hk] at hhead
      exact hhead rfl
  have hclean := clean_fixed part
  rw [hk] at hclean hhead
  rw [List.head?_append_of_ne_nil _ hne] at hhead
  exact ⟨hne, hclean.left, hhead, hnot⟩

lemma cleaned_of_valid (h : ValidPart part) : cleaned part = part := by
  have hfixed : fixed part = part := by rw [fixed_eq, if_neg h.start, scanned_of_clean h.clean]
  rw [cleaned, hfixed, stripLock_of_not h.lock]

lemma isPart_cleaned (h : IsPart part) : IsPart (cleaned part) := by
  obtain ⟨k, hk, -⟩ := fixed_eq_cleaned part
  intro c hc
  refine isPart_fixed h c ?_
  rw [hk]
  exact List.mem_append_left _ hc

lemma getLast?_fixed (part : List UInt8) :
    (fixed part).getLast? = some period ↔ part.getLast? = some period ∧ ∃ ch ∈ part, ch ≠ period := by
  cases part with
  | nil => simp [fixed]
  | cons ch part =>
    have hfirst : (if ch = period then dash else fixChar 0 ch) ≠ period := by
      have := @head_fixed_ne (ch :: part)
      rwa [fixed, List.head?_cons, Ne, Option.some_inj] at this
    have hscan := getLast?_scanned ch part
    have hgetD : ∀ o : Option UInt8, ∀ d, d ≠ period → (o.getD d = period ↔ o = some period) := by
      rintro (_ | y) d hd <;> simp [hd]
    rw [fixed, List.getLast?_cons, List.getLast?_cons, Option.some_inj, Option.some_inj, hgetD _ _ hfirst, hscan]
    by_cases hch : ch = period
    · rw [hch]
      cases hlast : part.getLast? with
      | none =>
        rw [List.getLast?_eq_none_iff.mp hlast]
        simp
      | some y => simp
    · rw [hgetD _ _ hch]
      simp [hch]

lemma getLast?_cleaned (part : List UInt8) :
    (cleaned part).getLast? = some period ↔ part.getLast? = some period ∧ ∃ ch ∈ part, ch ≠ period := by
  obtain ⟨k, hk, -⟩ := fixed_eq_cleaned part
  cases k with
  | zero =>
    rw [List.replicate_zero, List.flatten_nil, List.append_nil] at hk
    rw [← hk, getLast?_fixed]
  | succ k =>
    have hlock : LOCK_SUFFIX <:+ part := by
      apply lock_of_fixed
      rw [hk, List.replicate_succ', List.flatten_append, List.flatten_singleton, ← List.append_assoc]
      exact List.suffix_append _ _
    constructor
    · intro hlast
      obtain ⟨front, hfront⟩ := List.getLast?_eq_some_iff.mp hlast
      have hclean := clean_fixed part
      rw [hk, hfront, List.append_assoc] at hclean
      exact absurd hclean Clean.not_period_period
    · rintro ⟨hlast, -⟩
      obtain ⟨front, rfl⟩ := hlock
      have hletter : LOCK_SUFFIX.getLast? = some 0x6b := rfl
      rw [List.getLast?_append, hletter, Option.some_or] at hlast
      exact absurd hlast (by decide)

lemma scanned_lockBlock (hlast : last ≠ period) (n : Nat) (rest : List UInt8) :
    scanned last (lockBlock n ++ rest) = LOCK_SUFFIX ++ scanned 0x6b rest := by
  have hdots : ∀ n rest, scanned period (List.replicate n period ++ rest) = scanned period rest := by
    intro n rest
    induction n with
    | zero => rfl
    | succ n ih => rw [List.replicate_succ, List.cons_append, scanned, if_pos ⟨rfl, rfl⟩, List.nil_append, ih]
  have hfix : fixChar last period = period := by rw [fixChar, if_neg (by simp [disposition_eq_two.mpr rfl])]
  rw [lockBlock, List.replicate_succ, List.cons_append, List.cons_append, List.append_assoc, scanned,
    if_neg fun h => hlast h.2, hdots, hfix]
  rfl

lemma scanned_lockBlocks (hlast : last ≠ period) (ns : List Nat) :
    scanned last (ns.flatMap lockBlock) = (List.replicate ns.length LOCK_SUFFIX).flatten := by
  induction ns generalizing last with
  | nil => rfl
  | cons n ns ih =>
    rw [List.flatMap_cons, scanned_lockBlock hlast, ih (by decide)]
    rfl

lemma scanned_eq_locks (hlast : last ≠ period) {part : List UInt8} {k : Nat}
    (h : scanned last part = (List.replicate k LOCK_SUFFIX).flatten) : ∃ ns : List Nat, part = ns.flatMap lockBlock := by
  induction k generalizing last part with
  | zero =>
    cases part with
    | nil => exact ⟨[], rfl⟩
    | cons ch part =>
      rw [scanned, if_neg fun h => hlast h.2] at h
      simp at h
  | succ k ih =>
    rw [List.replicate_succ, List.flatten_cons] at h
    obtain ⟨n, rest, rfl, hrest⟩ := scanned_eq_lock h
    obtain ⟨ns, rfl⟩ := ih (by decide) hrest
    exact ⟨n :: ns, rfl⟩

lemma stripLock_locks {buf : List UInt8} (h : ¬LOCK_SUFFIX <:+ buf) (k : Nat) :
    stripLock (buf ++ (List.replicate k LOCK_SUFFIX).flatten) = buf := by
  induction k with
  | zero => rw [List.replicate_zero, List.flatten_nil, List.append_nil, stripLock_of_not h]
  | succ k ih =>
    rw [List.replicate_succ', List.flatten_append, List.flatten_singleton, ← List.append_assoc, stripLock_append_lock, ih]

lemma cleaned_eq_at : cleaned part = [atSign] ↔ ∃ ns : List Nat, part = atSign :: ns.flatMap lockBlock := by
  constructor
  · intro h
    obtain ⟨k, hk, -⟩ := fixed_eq_cleaned part
    rw [h] at hk
    cases part with
    | nil => simp [fixed] at hk
    | cons ch part =>
      rw [fixed, List.singleton_append, List.cons.injEq] at hk
      obtain rfl : ch = atSign := by
        have hfirst := hk.1
        split at hfirst
        · exact absurd hfirst (by decide)
        · rcases fixChar_eq_or 0 ch with hfix | hfix
          · exact absurd (hfix.symm.trans hfirst) (by decide)
          · rw [← hfix, hfirst]
      obtain ⟨ns, rfl⟩ := scanned_eq_locks (by decide) hk.2
      exact ⟨ns, rfl⟩
  · rintro ⟨ns, rfl⟩
    have hfixed : fixed (atSign :: ns.flatMap lockBlock) = [atSign] ++ (List.replicate ns.length LOCK_SUFFIX).flatten := by
      rw [fixed, scanned_lockBlocks (by decide)]
      rfl
    rw [cleaned, hfixed, stripLock_locks (by decide)]

lemma checkRefnameComponent_some {part rest buf : List UInt8} (hpart : IsPart part) (hrest : EndsPart rest)
    (hbuf : ∀ c, buf.getLast? = some c → c = slash) :
    checkRefnameComponent (part ++ rest) REFNAME_ALLOW_ONELEVEL (some buf) =
      some (part.length, REFNAME_ALLOW_ONELEVEL, some (buf ++ cleaned part)) := by
  rw [checkRefnameComponent, scanComponent_some part rest buf 0 hpart hrest]
  cases hcons : part with
  | nil => simp [scanned, cleaned, fixed, stripLock_of_not, LOCK_SUFFIX]
  | cons ch tail =>
    rw [← hcons]
    have hlen : part.length ≠ 0 := by simp [hcons]
    have hhead : (part ++ rest).head? = part.head? := List.head?_append_of_ne_nil _ (by simp [hcons])
    have hset : (buf ++ scanned 0 part).set buf.length dash = buf ++ (scanned 0 part).set 0 dash := by
      rw [List.set_append_right _ _ le_rfl, Nat.sub_self]
    have hfixed : (if part.head? = some period then (buf ++ scanned 0 part).set buf.length dash
        else buf ++ scanned 0 part) = buf ++ fixed part := by
      rw [hset, fixed_eq]
      split <;> rfl
    have hstrip : (if LOCK_SUFFIX <:+ part then stripLock (buf ++ fixed part) else buf ++ fixed part) =
        buf ++ cleaned part := by
      rw [cleaned_eq, stripLock_append hbuf]
      split <;> rfl
    rw [← hstrip, ← hfixed]
    simp only [Option.bind_eq_bind, Option.bind_some, if_neg hlen, hhead, List.take_left, repair, Option.getD_some,
      Option.map_some]
    split <;> split <;> simp

lemma checkRefnameComponent_none (hpart : IsPart part) (hrest : EndsPart rest)
    (hvalid : ValidPart part ∨ part = []) :
    checkRefnameComponent (part ++ rest) REFNAME_ALLOW_ONELEVEL none =
      some (part.length, REFNAME_ALLOW_ONELEVEL, none) := by
  rcases hvalid with hvalid | rfl
  · rcases scanComponent_none part rest 0 hpart hrest with ⟨hscan, -⟩ | ⟨-, hclean⟩
    · have hlen : part.length ≠ 0 := by simpa using hvalid.nonempty
      have hhead : (part ++ rest).head? = part.head? := List.head?_append_of_ne_nil _ hvalid.nonempty
      simp [checkRefnameComponent, hscan, hlen, hhead, repair, hvalid.start, hvalid.lock]
    · exact absurd hvalid.clean hclean
  · rw [List.nil_append, checkRefnameComponent, scanComponent_end hrest]
    rfl

lemma checkRefnameComponent_invalid (hpart : IsPart part) (hrest : EndsPart rest)
    (hne : part ≠ []) (hvalid : ¬ValidPart part) :
    checkRefnameComponent (part ++ rest) REFNAME_ALLOW_ONELEVEL none = none := by
  have hlen : part.length ≠ 0 := by simpa using hne
  have hhead : (part ++ rest).head? = part.head? := List.head?_append_of_ne_nil _ hne
  rcases scanComponent_none part rest 0 hpart hrest with ⟨hscan, hclean⟩ | ⟨hscan, -⟩
  · by_cases hstart : part.head? = some period
    · simp [checkRefnameComponent, hscan, hlen, hhead, repair, hstart]
    · have hlock : LOCK_SUFFIX <:+ part := by
        by_contra hlock
        exact hvalid ⟨hne, hclean, hstart, hlock⟩
      simp [checkRefnameComponent, hscan, hlen, hhead, repair, hstart, hlock]
  · simp [checkRefnameComponent, hscan]

end GitCore.Refname
