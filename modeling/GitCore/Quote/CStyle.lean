import GitCore.Quote.Shell

/-!
# Quoting as in C

`quote_c_style`, `quote_path` and `unquote_c_style` of `quote.c`.
-/

namespace GitCore.Quote

def doubleQuote : UInt8 := 34

def cqLookup (c : UInt8) : Int :=
  if c = 7 then 97 else if c = 8 then 98 else if c = 9 then 116 else if c = 10 then 110 else if c = 11 then 118
  else if c = 12 then 102 else if c = 13 then 114 else if c = 34 then 34 else if c = 92 then 92
  else if c < 32 ∨ c = 127 then 1 else if c < 128 then -1 else 0

section Write

variable (quotePathFully : Bool)

def cqMustQuote (c : UInt8) : Bool := cqLookup c + (if quotePathFully then 1 else 0) > 0

def nextQuotePos (s : List UInt8) (maxlen : Int) : Nat :=
  if maxlen < 0 then (s.takeWhile fun c => !cqMustQuote quotePathFully c).length
  else ((s.take maxlen.toNat).takeWhile fun c => !cqMustQuote quotePathFully c).length

def cqCode (ch : UInt8) : List UInt8 :=
  if cqLookup ch ≥ 32 then [UInt8.ofInt (cqLookup ch)]
  else [(ch >>> 6 &&& 3) + 48, (ch >>> 3 &&& 7) + 48, (ch &&& 7) + 48]

/-- The loop of `quote_c_style_counted`: whether nothing had to be quoted, and the output. -/
def quoteLoop (noDq : Bool) (p : List UInt8) (maxlen : Int) (atStart : Bool) : Bool × List UInt8 :=
  let len := nextQuotePos quotePathFully p maxlen
  if _h : len = maxlen ∨ maxlen < 0 ∧ p.length ≤ len then (atStart, p.take len)
  else
    let (start, out) := quoteLoop noDq (p.drop (len + 1)) (if maxlen ≥ 0 then maxlen - (len + 1) else maxlen) false
    (start, (if !noDq && atStart then [doubleQuote] else []) ++ p.take len ++ backslash :: cqCode (p.getD len 0) ++ out)
termination_by p.length + maxlen.toNat
decreasing_by
  rw [List.length_drop]
  split_ifs with hpos
  · have hle : len ≤ maxlen.toNat := by
      rw [show len = ((p.take maxlen.toNat).takeWhile fun c => !cqMustQuote quotePathFully c).length from
        if_neg (not_lt.mpr hpos)]
      exact ((p.take maxlen.toNat).takeWhile_sublist _).length_le.trans (List.length_take_le _ _)
    omega
  · omega

/-- The number of bytes that are counted, 0 if there is nothing to quote, and the output. -/
def quoteCStyleCounted (name : List UInt8) (maxlen : Int) (noDq : Bool) : Nat × List UInt8 :=
  let (start, out) := quoteLoop quotePathFully noDq name maxlen true
  if start then (0, out)
  else
    let out := out ++ if noDq then [] else [doubleQuote]
    (out.length, out)

def quoteCStyle (name : List UInt8) (noDq : Bool) : Nat × List UInt8 := quoteCStyleCounted quotePathFully name (-1) noDq

def quotePath (rel : List UInt8) (quoteSp : Bool) : List UInt8 :=
  let forceDq := quoteSp && rel.contains 32
  (if forceDq then [doubleQuote] else []) ++ (quoteCStyleCounted quotePathFully rel rel.length forceDq).2 ++
    if forceDq then [doubleQuote] else []

end Write

def isOctal (ch : UInt8) : Bool := 48 ≤ ch ∧ ch ≤ 55

def unescape : List UInt8 → Option (UInt8 × List UInt8)
  | [] => none
  | ch :: quoted =>
    if ch = 97 then some (7, quoted) else if ch = 98 then some (8, quoted) else if ch = 102 then some (12, quoted)
    else if ch = 110 then some (10, quoted) else if ch = 114 then some (13, quoted) else if ch = 116 then some (9, quoted)
    else if ch = 118 then some (11, quoted) else if ch = backslash ∨ ch = doubleQuote then some (ch, quoted)
    else if 48 ≤ ch ∧ ch ≤ 51 then
      match quoted with
      | d :: d' :: quoted =>
        if isOctal d && isOctal d' then some ((ch - 48) <<< 6 ||| (d - 48) <<< 3 ||| (d' - 48), quoted) else none
      | _ => none
    else none

lemma unescape_length {quoted rest : List UInt8} {ch : UInt8} (h : unescape quoted = some (ch, rest)) :
    rest.length < quoted.length := by
  unfold unescape at h
  split at h
  · cases h
  · split_ifs at h <;> try (cases h; exact Nat.lt_succ_self _)
    split at h
    · split_ifs at h
      cases h
      simp only [List.length_cons]
      omega
    · cases h

/-- The loop of `unquote_c_style`: the buffer with the text behind the closing quote, or the buffer at the error. -/
def unquoteLoop (sb quoted : List UInt8) : Except (List UInt8) (List UInt8 × List UInt8) :=
  let plain := quoted.takeWhile fun c => c ≠ doubleQuote ∧ c ≠ backslash
  match _h : quoted.drop plain.length with
  | [] => .error (sb ++ plain)
  | c :: rest =>
    if c = doubleQuote then .ok (sb ++ plain, rest)
    else match _hread : unescape rest with
      | none => .error (sb ++ plain)
      | some (ch, rest') => unquoteLoop (sb ++ plain ++ [ch]) rest'
termination_by quoted.length
decreasing_by
  have hlt := unescape_length _hread
  have hlen := congrArg List.length _h
  rw [List.length_drop, List.length_cons] at hlen
  omega

/-- The result, the buffer and `*endp`. -/
def unquoteCStyle (sb quoted : List UInt8) : Int × List UInt8 × Option (List UInt8) :=
  match quoted with
  | [] => (-1, sb, none)
  | c :: quoted =>
    if c ≠ doubleQuote then (-1, sb, none)
    else match unquoteLoop sb quoted with
      | .ok (sb', endp) => (0, sb', some endp)
      | .error sb' => (-1, sb'.take sb.length, none)

section Write

variable {fully : Bool} {name : List UInt8}

def escapeC (fully : Bool) (c : UInt8) : List UInt8 := if cqMustQuote fully c then backslash :: cqCode c else [c]

lemma flatMap_escapeC {p : List UInt8} (h : ∀ c ∈ p, cqMustQuote fully c = false) : p.flatMap (escapeC fully) = p := by
  have hsame : p.flatMap (escapeC fully) = p.flatMap fun c => [c] :=
    List.flatMap_congr fun c hc => if_neg (by simp [h c hc])
  rw [hsame, List.flatMap_singleton']

lemma quoteLoop_eq (noDq : Bool) {p : List UInt8} {maxlen : Int} (hmax : maxlen < 0 ∨ maxlen = p.length) (atStart : Bool) :
    quoteLoop fully noDq p maxlen atStart = (atStart && p.all (!cqMustQuote fully ·),
      (if !noDq && atStart && !p.all (!cqMustQuote fully ·) then [doubleQuote] else []) ++ p.flatMap (escapeC fully)) := by
  induction hn : p.length using Nat.strong_induction_on generalizing p maxlen atStart with
  | _ n ih =>
    have hlen : nextQuotePos fully p maxlen = (p.takeWhile fun c => !cqMustQuote fully c).length := by
      rw [nextQuotePos]
      obtain hneg | rfl := hmax
      · rw [if_pos hneg]
      · rw [if_neg (by omega), Int.toNat_natCast, List.take_length]
    have hsplit := p.takeWhile_append_dropWhile (p := fun c => !cqMustQuote fully c)
    have hplain : ∀ c ∈ p.takeWhile fun c => !cqMustQuote fully c, cqMustQuote fully c = false :=
      fun c hc => by simpa using List.mem_takeWhile_imp hc
    rw [quoteLoop]
    simp only [hlen]
    generalize p.takeWhile (fun c => !cqMustQuote fully c) = plain at *
    cases hdrop : p.dropWhile fun c => !cqMustQuote fully c with
    | nil =>
      obtain rfl : plain = p := by simpa [hdrop] using hsplit
      have hall : plain.all (!cqMustQuote fully ·) = true := by simpa using hplain
      rw [dif_pos (by omega), hall, flatMap_escapeC hplain]
      simp
    | cons c rest =>
      have hc : cqMustQuote fully c = true := by
        have := List.head?_dropWhile_not (fun c => !cqMustQuote fully c) p
        simpa [hdrop] using this
      rw [hdrop] at hsplit
      subst hsplit
      have hall : (plain ++ c :: rest).all (!cqMustQuote fully ·) = false := by simp [hc]
      rw [List.length_append, List.length_cons] at hn hmax
      have hrest := @ih rest.length (by omega) rest (if maxlen ≥ 0 then maxlen - (plain.length + 1) else maxlen)
        (by split_ifs <;> omega) false rfl
      rw [dif_neg (by rw [List.length_append, List.length_cons]; omega), hall,
        show (plain ++ c :: rest).drop (plain.length + 1) = rest by simp, hrest, List.flatMap_append, List.flatMap_cons,
        flatMap_escapeC hplain, escapeC, if_pos hc]
      simp

end Write

section Read

variable {sb quoted rest : List UInt8}

lemma unquoteLoop_eq (sb quoted : List UInt8) : unquoteLoop sb quoted =
    let plain := quoted.takeWhile fun c => c ≠ doubleQuote ∧ c ≠ backslash
    match quoted.drop plain.length with
    | [] => .error (sb ++ plain)
    | c :: rest =>
      if c = doubleQuote then .ok (sb ++ plain, rest)
      else match unescape rest with
        | none => .error (sb ++ plain)
        | some (ch, rest') => unquoteLoop (sb ++ plain ++ [ch]) rest' := by
  rw [unquoteLoop]
  split
  · rename_i h
    simp only [h]
  · rename_i c rest h
    simp only [h]
    split_ifs with hend
    · rfl
    · split <;> rename_i hread <;> rw [hread]

lemma unquoteLoop_plain {c : UInt8} (hc : c ≠ doubleQuote ∧ c ≠ backslash) :
    unquoteLoop sb (c :: quoted) = unquoteLoop (sb ++ [c]) quoted := by
  have htake : (c :: quoted).takeWhile (fun c => c ≠ doubleQuote ∧ c ≠ backslash) =
      c :: quoted.takeWhile fun c => c ≠ doubleQuote ∧ c ≠ backslash := List.takeWhile_cons_of_pos (by simp [hc])
  rw [unquoteLoop_eq, unquoteLoop_eq (sb ++ [c])]
  simp only [htake, List.length_cons, List.drop_succ_cons, List.append_assoc, List.cons_append,
    List.nil_append]

lemma unquoteLoop_end : unquoteLoop sb (doubleQuote :: rest) = .ok (sb, rest) := by
  rw [unquoteLoop_eq]
  simp

lemma unquoteLoop_escape {ch : UInt8} (h : unescape quoted = some (ch, rest)) :
    unquoteLoop sb (backslash :: quoted) = unquoteLoop (sb ++ [ch]) rest := by
  rw [unquoteLoop_eq]
  simp [h, doubleQuote, backslash]

lemma octal_digits (c : UInt8) : let d0 := (c >>> 6 &&& 3) + 48; let d1 := (c >>> 3 &&& 7) + 48; let d2 := (c &&& 7) + 48
    (48 ≤ d0 ∧ d0 ≤ 51) ∧ (isOctal d1 && isOctal d2) = true ∧ (d0 - 48) <<< 6 ||| (d1 - 48) <<< 3 ||| (d2 - 48) = c := by
  have hall : ∀ n : Fin 256, let c := UInt8.ofNat n
      let d0 := (c >>> 6 &&& 3) + 48; let d1 := (c >>> 3 &&& 7) + 48; let d2 := (c &&& 7) + 48
      (48 ≤ d0 ∧ d0 ≤ 51) ∧ (isOctal d1 && isOctal d2) = true ∧ (d0 - 48) <<< 6 ||| (d1 - 48) <<< 3 ||| (d2 - 48) = c := by
    decide +kernel
  simpa using hall ⟨c.toNat, c.toNat_lt⟩

lemma unescape_octal (c : UInt8) :
    unescape (((c >>> 6 &&& 3) + 48) :: ((c >>> 3 &&& 7) + 48) :: ((c &&& 7) + 48) :: rest) = some (c, rest) := by
  obtain ⟨hd, hoct, hval⟩ := octal_digits c
  generalize (c >>> 6 &&& 3) + 48 = d at *
  have hcases : d = 48 ∨ d = 49 ∨ d = 50 ∨ d = 51 := by
    simp only [UInt8.le_iff_toNat_le, ← UInt8.toNat_inj] at hd ⊢
    simp at hd ⊢
    omega
  rw [Bool.and_eq_true] at hoct
  obtain rfl | rfl | rfl | rfl := hcases <;> simp [unescape, hoct, backslash, doubleQuote] <;> simpa using hval

lemma mem_of_cqLookup {c : UInt8} (h : 32 ≤ cqLookup c) : c ∈ [7, 8, 9, 10, 11, 12, 13, doubleQuote, backslash] := by
  have hall : ∀ n : Fin 256, 32 ≤ cqLookup (UInt8.ofNat n) →
      UInt8.ofNat n ∈ [7, 8, 9, 10, 11, 12, 13, doubleQuote, backslash] := by decide +kernel
  simpa using hall ⟨c.toNat, c.toNat_lt⟩ (by simpa using h)

lemma unescape_cqCode (c : UInt8) : unescape (cqCode c ++ rest) = some (c, rest) := by
  by_cases hletter : 32 ≤ cqLookup c
  · obtain rfl | rfl | rfl | rfl | rfl | rfl | rfl | rfl | rfl : c = 7 ∨ c = 8 ∨ c = 9 ∨ c = 10 ∨ c = 11 ∨ c = 12 ∨
        c = 13 ∨ c = doubleQuote ∨ c = backslash := by simpa using mem_of_cqLookup hletter
    all_goals rfl
  · rw [cqCode, if_neg hletter]
    exact unescape_octal c

lemma unquoteLoop_escapeC : unquoteLoop sb (name.flatMap (escapeC fully) ++ doubleQuote :: rest) = .ok (sb ++ name, rest) := by
  induction name generalizing sb with
  | nil => rw [List.flatMap_nil, List.nil_append, unquoteLoop_end, List.append_nil]
  | cons c name ih =>
    rw [List.flatMap_cons, List.append_assoc, escapeC]
    split_ifs with hc
    · rw [List.cons_append, unquoteLoop_escape (unescape_cqCode c), ih, List.append_assoc, List.singleton_append]
    · have hplain : c ≠ doubleQuote ∧ c ≠ backslash := by
        constructor <;> rintro rfl <;> exact hc (by cases fully <;> decide)
      rw [List.singleton_append, unquoteLoop_plain hplain, ih, List.append_assoc, List.singleton_append]

lemma unquoteLoop_error {sb' : List UInt8} (h : unquoteLoop sb quoted = .error sb') : sb <+: sb' := by
  induction hn : quoted.length using Nat.strong_induction_on generalizing sb quoted with
  | _ n ih =>
    rw [unquoteLoop_eq] at h
    dsimp only at h
    split at h
    · cases h
      exact List.prefix_append sb _
    · rename_i c rest hrest
      split_ifs at h
      split at h
      · cases h
        exact List.prefix_append sb _
      · rename_i ch rest' hread
        have hlt := unescape_length hread
        have hlen := congrArg List.length hrest
        rw [List.length_drop, List.length_cons] at hlen
        refine List.IsPrefix.trans ?_ (ih rest'.length (by omega) h rfl)
        rw [List.append_assoc]
        exact List.prefix_append sb _

end Read

/-- What a reader makes of a name that may be quoted: a text that starts with a double quote is unquoted, whatever
follows it, any other text is the name. -/
def ReadsBack (out name : List UInt8) : Prop :=
  (out.head? = some doubleQuote → ∀ sb rest, unquoteCStyle sb (out ++ rest) = (0, sb ++ name, some rest)) ∧
    (out.head? ≠ some doubleQuote → out = name)

section Read

variable {fully : Bool} {name : List UInt8}

lemma readsBack_quoted : ReadsBack (doubleQuote :: name.flatMap (escapeC fully) ++ [doubleQuote]) name := by
  refine ⟨fun _ sb rest => ?_, fun h => absurd rfl h⟩
  rw [List.append_assoc, List.cons_append, List.singleton_append]
  simp [unquoteCStyle, unquoteLoop_escapeC]

lemma readsBack_plain (h : name.all (!cqMustQuote fully ·) = true) : ReadsBack name name := by
  refine ⟨fun hhead => ?_, fun _ => rfl⟩
  have hquote : cqMustQuote fully doubleQuote = false := by simpa using List.all_eq_true.mp h _ (List.mem_of_head? hhead)
  exact absurd hquote (by cases fully <;> decide)

lemma readsBack_counted {maxlen : Int} (hmax : maxlen < 0 ∨ maxlen = name.length) :
    ReadsBack (quoteCStyleCounted fully name maxlen false).2 name := by
  rw [quoteCStyleCounted, quoteLoop_eq false hmax]
  by_cases hall : name.all (!cqMustQuote fully ·) = true
  · have hplain : ∀ c ∈ name, cqMustQuote fully c = false := by simpa using hall
    simpa [hall, flatMap_escapeC hplain] using readsBack_plain hall
  · rw [Bool.not_eq_true] at hall
    simpa [hall] using readsBack_quoted

lemma readsBack_quotePath (quoteSp : Bool) : ReadsBack (quotePath fully name quoteSp) name := by
  rw [quotePath]
  cases hforce : quoteSp && name.contains 32
  · simpa using readsBack_counted (.inr rfl)
  · have hout : (quoteCStyleCounted fully name name.length true).2 = name.flatMap (escapeC fully) := by
      rw [quoteCStyleCounted, quoteLoop_eq true (.inr rfl)]
      cases name.all (!cqMustQuote fully ·) <;> simp
    simpa [hout] using readsBack_quoted

lemma unquoteCStyle_error (sb quoted : List UInt8) :
    (unquoteCStyle sb quoted).1 = 0 ∨ (unquoteCStyle sb quoted).1 = -1 ∧ (unquoteCStyle sb quoted).2.1 = sb := by
  unfold unquoteCStyle
  split
  · exact .inr ⟨rfl, rfl⟩
  · split_ifs
    · exact .inr ⟨rfl, rfl⟩
    · split
      · exact .inl rfl
      · rename_i herr
        exact .inr ⟨rfl, (List.prefix_iff_eq_take.mp (unquoteLoop_error herr)).symm⟩

end Read

/-- A quoted name is read back whatever text follows it, and a text that is not well formed leaves the buffer as it was. -/
theorem unquoteCStyle_quoteCStyle (fully : Bool) (name : List UInt8) :
    ReadsBack (quoteCStyle fully name false).2 name ∧ (∀ quoteSp, ReadsBack (quotePath fully name quoteSp) name) ∧
      ∀ sb quoted, (unquoteCStyle sb quoted).1 = 0 ∨ (unquoteCStyle sb quoted).1 = -1 ∧ (unquoteCStyle sb quoted).2.1 = sb :=
  ⟨readsBack_counted (.inl (by decide)), readsBack_quotePath, unquoteCStyle_error⟩

end GitCore.Quote
