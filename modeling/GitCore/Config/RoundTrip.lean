import Mathlib.Data.List.TakeWhile
import GitCore.Config.Parse

/-!
# What is written is read

The section header and the entry that are written for a key and a value are parsed as one entry with
the key in its stored form and the value, while the counter of the reader does not run over.
-/

namespace GitCore.Config

section Characters

variable {c : UInt8}

lemma isspace_of_iskeychar (h : iskeychar c = true) : isspace c = false := by
  by_contra hspace
  rw [Bool.not_eq_false] at hspace
  unfold isspace at hspace
  rw [decide_eq_true_eq] at hspace
  rcases hspace with rfl | rfl | rfl | rfl <;> revert h <;> decide

lemma ne_of_iskeychar (h : iskeychar c = true) {d : UInt8} (hd : iskeychar d = false) : c ≠ d := by
  rintro rfl
  rw [h] at hd
  cases hd

lemma iskeychar_of_isalpha (h : isalpha c = true) : iskeychar c = true := by
  unfold iskeychar isalnum
  simp [h]

lemma getNextChar_cons {rest : List UInt8} {n : Nat} {eof : Bool} (hn : n < INT_MAX)
    (hcr : c = carriageReturn → rest.head? ≠ some newline) :
    getNextChar ⟨c :: rest, n, eof⟩ = (c, ⟨rest, n + 1, eof⟩) := by
  have hfold : foldCr (c :: rest) = some (c, rest) := if_neg fun h => hcr h.1 h.2
  rw [getNextChar, hfold]
  dsimp only
  rw [if_neg (by omega)]

lemma getNextChar_cr {rest : List UInt8} {n : Nat} {eof : Bool} (hn : n < INT_MAX) :
    getNextChar ⟨carriageReturn :: newline :: rest, n, eof⟩ = (newline, ⟨rest, n + 1, eof⟩) := by
  have hfold : foldCr (carriageReturn :: newline :: rest) = some (newline, rest) := rfl
  rw [getNextChar, hfold]
  dsimp only
  rw [if_neg (by omega)]

end Characters

section Values

variable {rest value : List UInt8} {n trimLen : Nat} {quote : Bool} {c : UInt8}

lemma parseValue_backslash {d : UInt8} (hn : n + 2 ≤ INT_MAX) (hun : unescape d = some c) (hd : d ≠ newline)
    (hdcr : d ≠ carriageReturn) :
    parseValue quote false trimLen value ⟨backslash :: d :: rest, n, false⟩ =
      parseValue quote false 0 (value ++ [c]) ⟨rest, n + 2, false⟩ := by
  have h₁ : getNextChar ⟨backslash :: d :: rest, n, false⟩ = (backslash, ⟨d :: rest, n + 1, false⟩) :=
    getNextChar_cons (by omega) fun h => absurd h (by decide)
  have h₂ : getNextChar ⟨d :: rest, n + 1, false⟩ = (d, ⟨rest, n + 2, false⟩) :=
    getNextChar_cons (by omega) fun h => absurd h hdcr
  have hcomment : ¬ (quote = false ∧ (backslash = semicolon ∨ backslash = hash)) := by
    rintro ⟨-, h⟩
    revert h
    decide
  rw [parseValue, h₁]
  dsimp only
  rw [h₂]
  dsimp only
  rw [if_neg (by decide), if_neg Bool.false_ne_true, if_neg (fun h => Bool.false_ne_true h.1), if_neg hcomment,
    if_pos rfl, if_neg hd, hun]

lemma parseValue_plain (hn : n + 1 ≤ INT_MAX) (hcr : c = carriageReturn → rest.head? ≠ some newline)
    (hc : c ≠ newline ∧ c ≠ tab ∧ c ≠ doubleQuote ∧ c ≠ backslash)
    (hplain : quote = true ∨ (c ≠ space ∧ c ≠ carriageReturn ∧ c ≠ semicolon ∧ c ≠ hash)) :
    parseValue quote false trimLen value ⟨c :: rest, n, false⟩ =
      parseValue quote false 0 (value ++ [c]) ⟨rest, n + 1, false⟩ := by
  have hspace : ¬ (isspace c = true ∧ quote = false) := by
    rintro ⟨hspace, rfl⟩
    obtain ⟨h₁, h₂, -⟩ := hplain.resolve_left Bool.false_ne_true
    unfold isspace at hspace
    rw [decide_eq_true_eq] at hspace
    rcases hspace with h | h | h | h
    · exact h₁ h
    · exact hc.2.1 h
    · exact hc.1 h
    · exact h₂ h
  have hcomment : ¬ (quote = false ∧ (c = semicolon ∨ c = hash)) := by
    rintro ⟨rfl, h⟩
    obtain ⟨-, -, h₁, h₂⟩ := hplain.resolve_left Bool.false_ne_true
    exact h.elim h₁ h₂
  rw [parseValue, getNextChar_cons (by omega) hcr]
  dsimp only
  rw [if_neg hc.1, if_neg Bool.false_ne_true, if_neg hspace, if_neg hcomment, if_neg hc.2.2.2, if_neg hc.2.2.1]

lemma parseValue_escapeChar (hn : n + (escapeChar c).length ≤ INT_MAX)
    (hcr : c = carriageReturn → rest.head? ≠ some newline)
    (hplain : quote = true ∨ (c ≠ space ∧ c ≠ carriageReturn ∧ c ≠ semicolon ∧ c ≠ hash)) :
    parseValue quote false trimLen value ⟨escapeChar c ++ rest, n, false⟩ =
      parseValue quote false 0 (value ++ [c]) ⟨rest, n + (escapeChar c).length, false⟩ := by
  by_cases hnewline : c = newline
  · subst hnewline
    exact parseValue_backslash hn rfl (by decide) (by decide)
  by_cases htab : c = tab
  · subst htab
    exact parseValue_backslash hn rfl (by decide) (by decide)
  by_cases hescape : c = doubleQuote ∨ c = backslash
  · have hchar : escapeChar c = [backslash, c] := by
      rw [escapeChar, if_neg hnewline, if_neg htab, if_pos hescape]
    rw [hchar] at hn ⊢
    refine parseValue_backslash hn ?_ hnewline ?_
    · rcases hescape with rfl | rfl <;> rfl
    · rcases hescape with rfl | rfl <;> decide
  · have hchar : escapeChar c = [c] := by
      rw [escapeChar, if_neg hnewline, if_neg htab, if_neg hescape]
    rw [hchar] at hn ⊢
    exact parseValue_plain hn hcr ⟨hnewline, htab, fun h => hescape (.inl h), fun h => hescape (.inr h)⟩ hplain

lemma head_escapeChar (c : UInt8) (rest : List UInt8) : (escapeChar c ++ rest).head? ≠ some newline := by
  have hbackslash : backslash ≠ newline := by decide
  unfold escapeChar
  split
  · exact fun h => hbackslash (Option.some.inj h)
  split
  · exact fun h => hbackslash (Option.some.inj h)
  split
  · exact fun h => hbackslash (Option.some.inj h)
  · rename_i h _ _
    exact fun h' => h (Option.some.inj h')

lemma head_flatMap_escapeChar (bytes : List UInt8) (h : rest.head? ≠ some newline) :
    (bytes.flatMap escapeChar ++ rest).head? ≠ some newline := by
  cases bytes with
  | nil => exact h
  | cons c bytes =>
    rw [List.flatMap_cons, List.append_assoc]
    exact head_escapeChar c _

lemma parseValue_quoted (bytes : List UInt8) (hrest : rest.head? ≠ some newline)
    (hn : n + (bytes.flatMap escapeChar).length ≤ INT_MAX) :
    parseValue true false 0 value ⟨bytes.flatMap escapeChar ++ rest, n, false⟩ =
      parseValue true false 0 (value ++ bytes) ⟨rest, n + (bytes.flatMap escapeChar).length, false⟩ := by
  induction bytes generalizing value n with
  | nil => rw [List.append_nil]; exact rfl
  | cons c bytes ih =>
    rw [List.flatMap_cons, List.length_append] at hn ⊢
    rw [List.append_assoc, parseValue_escapeChar (by omega) (fun _ => head_flatMap_escapeChar bytes hrest) (.inl rfl),
      ih (by omega), List.append_assoc, Nat.add_assoc]
    exact rfl

lemma parseValue_space (hn : n + 1 ≤ INT_MAX) (hvalue : value ≠ []) :
    ∃ t, parseValue false false trimLen value ⟨space :: rest, n, false⟩ =
      parseValue false false t (value ++ [space]) ⟨rest, n + 1, false⟩ := by
  refine ⟨if trimLen = 0 then value.length else trimLen, ?_⟩
  have hlen : value.length ≠ 0 := by rwa [Ne, List.length_eq_zero_iff]
  rw [parseValue, getNextChar_cons (by omega) fun h => absurd h (by decide)]
  dsimp only
  rw [if_neg (by decide), if_neg Bool.false_ne_true, if_pos ⟨rfl, rfl⟩, if_pos hlen]

lemma parseValue_bare (bytes : List UInt8) (hne : bytes ≠ [])
    (hplain : ∀ c ∈ bytes, c ≠ carriageReturn ∧ c ≠ semicolon ∧ c ≠ hash)
    (hfirst : value ≠ [] ∨ bytes.head? ≠ some space) (hlast : bytes.getLast? ≠ some space)
    (hn : n + (bytes.flatMap escapeChar).length ≤ INT_MAX) :
    parseValue false false trimLen value ⟨bytes.flatMap escapeChar ++ rest, n, false⟩ =
      parseValue false false 0 (value ++ bytes) ⟨rest, n + (bytes.flatMap escapeChar).length, false⟩ := by
  induction bytes generalizing value n trimLen with
  | nil => exact absurd rfl hne
  | cons c bytes ih =>
    obtain ⟨hcr, hsemicolon, hhash⟩ := hplain c List.mem_cons_self
    have hplain' : ∀ c ∈ bytes, c ≠ carriageReturn ∧ c ≠ semicolon ∧ c ≠ hash := fun b hb =>
      hplain b (List.mem_cons_of_mem _ hb)
    rw [List.flatMap_cons, List.length_append] at hn ⊢
    have hmore : ∀ t, bytes ≠ [] →
        parseValue false false t (value ++ [c]) ⟨bytes.flatMap escapeChar ++ rest, n + (escapeChar c).length, false⟩ =
          parseValue false false 0 (value ++ [c] ++ bytes)
            ⟨rest, n + (escapeChar c).length + (bytes.flatMap escapeChar).length, false⟩ := by
      intro t hbytes
      refine ih hbytes hplain' (.inl (by simp)) ?_ (by omega)
      rwa [List.getLast?_cons_of_ne_nil hbytes] at hlast
    rw [List.append_assoc, ← Nat.add_assoc]
    by_cases hspace : c = space
    · subst hspace
      have hvalue : value ≠ [] := hfirst.resolve_right fun h => h rfl
      have hbytes : bytes ≠ [] := by
        rintro rfl
        exact hlast rfl
      obtain ⟨t, ht⟩ := @parseValue_space (bytes.flatMap escapeChar ++ rest) value n trimLen
        (by have : (escapeChar space).length = 1 := rfl; omega) hvalue
      refine ht.trans ((hmore t hbytes).trans ?_)
      rw [List.append_assoc]
      exact rfl
    · rw [parseValue_escapeChar (by omega) (fun h => absurd h hcr) (.inr ⟨hspace, hcr, hsemicolon, hhash⟩)]
      by_cases hbytes : bytes = []
      · subst hbytes
        exact rfl
      · rw [hmore 0 hbytes, List.append_assoc]
        exact rfl

def Trimmed (value : List UInt8) (trimLen : Nat) (buffer : List UInt8) : Prop :=
  (trimLen = 0 ∧ buffer = value) ∨ (trimLen ≠ 0 ∧ trimLen = value.length ∧ value <+: buffer)

lemma Trimmed.result {buffer : List UInt8} (h : Trimmed value trimLen buffer) :
    (if trimLen ≠ 0 then some (buffer.take trimLen) else some buffer) = some value := by
  rcases h with ⟨rfl, rfl⟩ | ⟨hne, rfl, hpre⟩
  · exact if_neg fun h => h rfl
  · rw [if_pos hne, ← List.prefix_iff_eq_take.mp hpre]

lemma parseValue_comment {buffer text : List UInt8} (htext : newline ∉ text)
    (htrim : Trimmed value trimLen buffer) (hn : n + text.length + 1 ≤ INT_MAX) :
    ∃ n', parseValue false true trimLen buffer ⟨text ++ [newline], n, false⟩ = (some value, ⟨[], n', false⟩) := by
  induction text generalizing n with
  | nil =>
    refine ⟨n + 1, ?_⟩
    have hnext : getNextChar ⟨[newline], n, false⟩ = (newline, ⟨[], n + 1, false⟩) :=
      getNextChar_cons (by rw [List.length_nil] at hn; omega) fun h => absurd h (by decide)
    rw [List.nil_append, parseValue, hnext]
    dsimp only
    rw [if_pos rfl, if_neg Bool.false_ne_true, htrim.result]
  | cons c text ih =>
    rw [List.length_cons] at hn
    have hc : c ≠ newline := fun h => htext (h ▸ List.mem_cons_self)
    have htext' : newline ∉ text := fun h => htext (List.mem_cons_of_mem _ h)
    by_cases hcr : c = carriageReturn ∧ text = []
    · obtain ⟨rfl, rfl⟩ := hcr
      refine ⟨n + 1, ?_⟩
      rw [List.cons_append, List.nil_append, parseValue, getNextChar_cr (by omega)]
      dsimp only
      rw [if_pos rfl, if_neg Bool.false_ne_true, htrim.result]
    · have hhead : c = carriageReturn → (text ++ [newline]).head? ≠ some newline := by
        intro h
        cases text with
        | nil => exact absurd ⟨h, rfl⟩ hcr
        | cons b text => exact fun hb => htext' (Option.some.inj hb ▸ List.mem_cons_self)
      obtain ⟨n', h'⟩ := ih htext' (n := n + 1) (by omega)
      refine ⟨n', ?_⟩
      rw [List.cons_append, parseValue, getNextChar_cons (by omega) hhead]
      dsimp only
      rw [if_neg hc, if_pos rfl, h']

lemma parseValue_tail {buffer blanks text : List UInt8} (hblanks : ∀ c ∈ blanks, c = space ∨ c = tab)
    (htext : newline ∉ text) (htrim : Trimmed value trimLen buffer)
    (hn : n + blanks.length + text.length + 2 ≤ INT_MAX) :
    ∃ n', parseValue false false trimLen buffer ⟨blanks ++ hash :: (text ++ [newline]), n, false⟩ =
      (some value, ⟨[], n', false⟩) := by
  induction blanks generalizing n trimLen buffer with
  | nil =>
    obtain ⟨n', h'⟩ := parseValue_comment htext htrim (n := n + 1) (by rw [List.length_nil] at hn; omega)
    refine ⟨n', ?_⟩
    have hhash : hash ≠ newline ∧ isspace hash = false := by decide
    rw [List.nil_append, parseValue, getNextChar_cons (by rw [List.length_nil] at hn; omega)
      fun h => absurd h (by decide)]
    dsimp only
    rw [if_neg hhash.1, if_neg Bool.false_ne_true, if_neg fun h => by rw [hhash.2] at h; exact Bool.false_ne_true h.1,
      if_pos ⟨rfl, .inr rfl⟩, h']
  | cons c blanks ih =>
    rw [List.length_cons] at hn
    have hc : c ≠ newline ∧ c ≠ carriageReturn ∧ isspace c = true := by
      rcases hblanks c List.mem_cons_self with rfl | rfl <;> decide
    have hstep : Trimmed value (if trimLen = 0 then buffer.length else trimLen)
        (if buffer.length ≠ 0 then buffer ++ [c] else buffer) := by
      rcases htrim with ⟨rfl, rfl⟩ | ⟨hne, rfl, hpre⟩
      · rw [if_pos rfl]
        by_cases hnil : buffer.length = 0
        · rw [if_neg (not_not.mpr hnil)]
          exact .inl ⟨hnil, rfl⟩
        · rw [if_pos hnil]
          exact .inr ⟨hnil, rfl, List.prefix_append _ _⟩
      · have hlen := hpre.length_le
        rw [if_neg hne, if_pos (by omega)]
        exact .inr ⟨hne, rfl, hpre.trans (List.prefix_append _ _)⟩
    obtain ⟨n', h'⟩ := ih (fun b hb => hblanks b (List.mem_cons_of_mem _ hb)) hstep (n := n + 1) (by omega)
    refine ⟨n', ?_⟩
    rw [List.cons_append, parseValue, getNextChar_cons (by omega) fun h => absurd h hc.2.1]
    dsimp only
    rw [if_neg hc.1, if_neg Bool.false_ne_true, if_pos ⟨hc.2.2, rfl⟩, h']

variable {comment : Option (List UInt8)}

lemma Prepared.shape (h : Prepared comment) :
    comment = none ∨ ∃ blanks text, comment = some (blanks ++ hash :: text) ∧
      (∀ c ∈ blanks, c = space ∨ c = tab) ∧ newline ∉ text := by
  cases h with
  | absent => exact .inl rfl
  | @given comment prepared h =>
    refine .inr ?_
    unfold prepareCommentString at h
    split at h
    · cases h
    rename_i hline
    have hblank : ∀ c ∈ comment.takeWhile (fun c => c = space ∨ c = tab), c = space ∨ c = tab := fun c hc => by
      simpa using List.all_eq_true.mp List.all_takeWhile c hc
    dsimp only at h
    split at h
    · rename_i hfirst
      obtain rfl := Option.some.inj h
      obtain ⟨text, htext⟩ := List.head?_eq_some_iff.mp hfirst.2
      refine ⟨_, text, ?_, hblank, ?_⟩
      · rw [← htext, List.prefix_iff_eq_append.mp (List.takeWhile_prefix _)]
      · intro hmem
        refine hline (List.mem_of_mem_drop (i := (comment.takeWhile fun c => c = space ∨ c = tab).length) ?_)
        rw [htext]
        exact List.mem_cons_of_mem _ hmem
    split at h
    · rename_i hfirst
      obtain rfl := Option.some.inj h
      obtain ⟨text, rfl⟩ := List.head?_eq_some_iff.mp hfirst
      exact ⟨[space], text, rfl, by simp, fun hmem => hline (List.mem_cons_of_mem _ hmem)⟩
    · obtain rfl := Option.some.inj h
      refine ⟨[space], space :: comment, rfl, by simp, ?_⟩
      intro hmem
      rcases List.mem_cons.mp hmem with h | h
      · exact absurd h (by decide)
      · exact hline h

lemma parseValue_toggle (hn : n + 1 ≤ INT_MAX) :
    parseValue quote false trimLen value ⟨doubleQuote :: rest, n, false⟩ =
      parseValue (!quote) false 0 value ⟨rest, n + 1, false⟩ := by
  have hquote : doubleQuote ≠ newline ∧ isspace doubleQuote = false ∧ ¬ (doubleQuote = semicolon ∨ doubleQuote = hash) ∧
      doubleQuote ≠ backslash := by decide
  rw [parseValue, getNextChar_cons (by omega) fun h => absurd h (by decide)]
  dsimp only
  rw [if_neg hquote.1, if_neg Bool.false_ne_true, if_neg fun h => by rw [hquote.2.1] at h; exact Bool.false_ne_true h.1,
    if_neg fun h => hquote.2.2.1 h.2, if_neg hquote.2.2.2, if_pos rfl]

lemma parseValue_end (hcomment : Prepared comment)
    (hn : n + (comment.getD []).length + 1 ≤ INT_MAX) :
    ∃ n', parseValue false false 0 value ⟨comment.getD [] ++ [newline], n, false⟩ = (some value, ⟨[], n', false⟩) := by
  have htrim : Trimmed value 0 value := .inl ⟨rfl, rfl⟩
  rcases hcomment.shape with rfl | ⟨blanks, text, rfl, hblanks, htext⟩
  · refine ⟨n + 1, ?_⟩
    rw [Option.getD_none, List.nil_append, parseValue, getNextChar_cons (by omega) fun h => absurd h (by decide)]
    exact if_pos rfl
  · rw [Option.getD_some, List.append_assoc]
    rw [Option.getD_some, List.length_append, List.length_cons] at hn
    exact parseValue_tail hblanks htext htrim (by omega)

lemma needsQuote_false (h : needsQuote value = false) :
    value.head? ≠ some space ∧ (∀ c ∈ value, c ≠ carriageReturn ∧ c ≠ semicolon ∧ c ≠ hash) ∧
      value.getLast? ≠ some space := by
  unfold needsQuote at h
  rw [decide_eq_false_iff_not, not_or, not_or] at h
  refine ⟨h.1, fun c hc => ?_, h.2.2⟩
  have hany := h.2.1
  rw [List.any_eq_true, not_exists] at hany
  have hc' := not_and.mp (hany c) hc
  rw [decide_eq_true_eq, not_or, not_or] at hc'
  exact ⟨hc'.2.2, hc'.1, hc'.2.1⟩

lemma parseValue_writePair (hcomment : Prepared comment) (bytes : List UInt8)
    (hn : n + 2 * (quoteOf bytes).length + (bytes.flatMap escapeChar).length + (comment.getD []).length + 2 ≤ INT_MAX) :
    ∃ n', parseValue false false 0 [] ⟨space :: (quoteOf bytes ++ bytes.flatMap escapeChar ++ quoteOf bytes ++
        comment.getD [] ++ [newline]), n, false⟩ = (some bytes, ⟨[], n', false⟩) := by
  have hblank : ∀ rest, parseValue false false 0 [] ⟨space :: rest, n, false⟩ =
      parseValue false false 0 [] ⟨rest, n + 1, false⟩ := by
    intro rest
    rw [parseValue, getNextChar_cons (by omega) fun h => absurd h (by decide)]
    dsimp only
    rw [if_neg (by decide), if_neg Bool.false_ne_true, if_pos ⟨rfl, rfl⟩]
    exact rfl
  rw [hblank]
  unfold quoteOf at hn ⊢
  by_cases hquote : needsQuote bytes = true
  · rw [if_pos hquote] at hn ⊢
    rw [List.length_singleton] at hn
    obtain ⟨n', h'⟩ := @parseValue_end bytes (n + 2 + (bytes.flatMap escapeChar).length + 1) comment hcomment (by omega)
    refine ⟨n', ?_⟩
    have hclose : (doubleQuote :: (comment.getD [] ++ [newline])).head? ≠ some newline :=
      fun h => absurd (Option.some.inj h) (by decide)
    have htext : [doubleQuote] ++ bytes.flatMap escapeChar ++ [doubleQuote] ++ comment.getD [] ++ [newline] =
        doubleQuote :: (bytes.flatMap escapeChar ++ doubleQuote :: (comment.getD [] ++ [newline])) := by
      simp only [List.append_assoc, List.cons_append, List.nil_append]
    rw [htext, parseValue_toggle (by omega)]
    rw [Bool.not_false, parseValue_quoted bytes hclose (by omega), List.nil_append, parseValue_toggle (by omega)]
    exact h'
  · rw [if_neg hquote] at hn ⊢
    rw [List.append_nil, List.nil_append, List.append_assoc]
    rw [List.length_nil] at hn
    obtain ⟨hfirst, hplain, hlast⟩ := needsQuote_false (Bool.not_eq_true _ ▸ hquote)
    obtain ⟨n', h'⟩ := @parseValue_end bytes (n + 1 + (bytes.flatMap escapeChar).length) comment hcomment (by omega)
    refine ⟨n', ?_⟩
    by_cases hnil : bytes = []
    · subst hnil
      exact h'
    · rw [parseValue_bare bytes hnil hplain (.inr hfirst) hlast (by omega), List.nil_append]
      exact h'

end Values

section Names

variable {rest : List UInt8} {n : Nat}

lemma readName_append {name chars : List UInt8} (hchars : ∀ c ∈ chars, iskeychar c = true)
    (hn : n + chars.length ≤ INT_MAX) :
    readName name ⟨chars ++ rest, n, false⟩ =
      readName (name ++ chars.map tolower) ⟨rest, n + chars.length, false⟩ := by
  induction chars generalizing name n with
  | nil => rw [List.map_nil, List.append_nil]; exact rfl
  | cons c chars ih =>
    rw [List.length_cons] at hn ⊢
    have hc := hchars c List.mem_cons_self
    rw [List.cons_append, readName, getNextChar_cons (by omega) fun h => absurd h (ne_of_iskeychar hc rfl)]
    dsimp only
    rw [if_neg Bool.false_ne_true, if_neg (fun h => by rw [hc] at h; cases h),
      ih (fun b hb => hchars b (List.mem_cons_of_mem _ hb)) (by omega), List.map_cons, List.append_assoc,
      Nat.add_assoc, Nat.add_comm 1]
    exact rfl

lemma cString_eq {bytes : List UInt8} (h : (0 : UInt8) ∉ bytes) : cString bytes = bytes := by
  refine List.takeWhile_eq_self_iff.mpr fun c hc => ?_
  rw [decide_eq_true_eq]
  rintro rfl
  exact h hc

lemma getValue_writePair (hcomment : Prepared comment) {name chars bytes : List UInt8}
    (hchars : ∀ c ∈ chars, iskeychar c = true) (hname : (0 : UInt8) ∉ name ++ chars.map tolower)
    (hbytes : (0 : UInt8) ∉ bytes)
    (hn : n + chars.length + 2 * (quoteOf bytes).length + (bytes.flatMap escapeChar).length +
      (comment.getD []).length + 4 ≤ INT_MAX) :
    ∃ n', getValue name ⟨chars ++ space :: equals :: space :: (quoteOf bytes ++ bytes.flatMap escapeChar ++
        quoteOf bytes ++ comment.getD [] ++ [newline]), n, false⟩ =
      (some (name ++ chars.map tolower, some bytes), ⟨[], n', false⟩) := by
  obtain ⟨n', hvalue⟩ := parseValue_writePair hcomment bytes (n := n + chars.length + 2) (by omega)
  refine ⟨n', ?_⟩
  generalize hrest : space :: (quoteOf bytes ++ bytes.flatMap escapeChar ++ quoteOf bytes ++ comment.getD [] ++
    [newline]) = rest at hvalue ⊢
  have hread : readName name ⟨chars ++ space :: equals :: rest, n, false⟩ =
      (name ++ chars.map tolower, space, ⟨equals :: rest, n + chars.length + 1, false⟩) := by
    rw [readName_append hchars (by omega), readName, getNextChar_cons (by omega) fun h => absurd h (by decide)]
    exact rfl
  have hskip : skipBlanks space ⟨equals :: rest, n + chars.length + 1, false⟩ =
      (equals, ⟨rest, n + chars.length + 2, false⟩) := by
    rw [skipBlanks, if_pos (.inl rfl), getNextChar_cons (by omega) fun h => absurd h (by decide)]
    dsimp only
    rw [if_neg (by decide), skipBlanks, if_neg (by decide)]
  rw [getValue, hread]
  dsimp only
  rw [hskip]
  dsimp only
  rw [if_neg (by decide), if_neg (by decide), hvalue]
  dsimp only
  rw [cString_eq hname, cString_eq hbytes]

lemma getBaseVar_append {name chars : List UInt8} (hchars : ∀ c ∈ chars, iskeychar c = true)
    (hn : n + chars.length ≤ INT_MAX) :
    getBaseVar name ⟨chars ++ rest, n, false⟩ =
      getBaseVar (name ++ chars.map tolower) ⟨rest, n + chars.length, false⟩ := by
  induction chars generalizing name n with
  | nil => rw [List.map_nil, List.append_nil]; exact rfl
  | cons c chars ih =>
    rw [List.length_cons] at hn ⊢
    have hc := hchars c List.mem_cons_self
    rw [List.cons_append, getBaseVar, getNextChar_cons (by omega) fun h => absurd h (ne_of_iskeychar hc rfl)]
    dsimp only
    rw [if_neg Bool.false_ne_true, if_neg (ne_of_iskeychar hc rfl),
      if_neg (by rw [isspace_of_iskeychar hc]; exact Bool.false_ne_true),
      if_neg (fun h => by rw [hc] at h; cases h.1),
      ih (fun b hb => hchars b (List.mem_cons_of_mem _ hb)) (by omega), List.map_cons, List.append_assoc,
      Nat.add_assoc, Nat.add_comm 1]
    exact rfl

lemma readSubsection_escape {name bytes : List UInt8} (hbytes : newline ∉ bytes)
    (hn : n + (escapeSubsection bytes).length + 1 ≤ INT_MAX) :
    readSubsection name ⟨escapeSubsection bytes ++ doubleQuote :: rest, n, false⟩ =
      some (name ++ bytes, ⟨rest, n + (escapeSubsection bytes).length + 1, false⟩) := by
  induction bytes generalizing name n with
  | nil =>
    have hn' : n < INT_MAX := by
      have : (escapeSubsection []).length = 0 := rfl
      omega
    have hquote : doubleQuote ≠ newline := by decide
    have hnil : escapeSubsection [] = [] := rfl
    rw [hnil, List.nil_append, readSubsection, getNextChar_cons hn' fun h => absurd h (by decide)]
    dsimp only
    rw [if_neg hquote, if_pos rfl, List.append_nil]
    exact rfl
  | cons c bytes ih =>
    have hc : c ≠ newline := fun h => hbytes (h ▸ List.mem_cons_self)
    have hbytes' : newline ∉ bytes := fun h => hbytes (List.mem_cons_of_mem _ h)
    have hhead : (escapeSubsection bytes ++ doubleQuote :: rest).head? ≠ some newline := by
      cases bytes with
      | nil => exact fun h => absurd (Option.some.inj h) (by decide)
      | cons b bytes =>
        have hb : b ≠ newline := fun h => hbytes' (h ▸ List.mem_cons_self)
        unfold escapeSubsection
        rw [List.flatMap_cons]
        split
        · exact fun h => absurd (Option.some.inj h) (by decide : backslash ≠ newline)
        · exact fun h => hb (Option.some.inj h)
    have hcons : escapeSubsection (c :: bytes) =
        (if c = doubleQuote ∨ c = backslash then [backslash, c] else [c]) ++ escapeSubsection bytes := rfl
    rw [hcons] at hn ⊢
    by_cases hescape : c = doubleQuote ∨ c = backslash
    · rw [if_pos hescape] at hn ⊢
      rw [List.length_append, List.length_cons, List.length_singleton] at hn
      have hcr : c ≠ carriageReturn := by rcases hescape with rfl | rfl <;> decide
      rw [List.append_assoc, List.cons_append, List.cons_append, List.nil_append, readSubsection,
        getNextChar_cons (by omega) fun h => absurd h (by decide)]
      dsimp only
      rw [getNextChar_cons (by omega) fun h => absurd h hcr]
      dsimp only
      rw [if_neg (by decide), if_neg (by decide), if_pos rfl, if_neg hc, ih hbytes' (by omega), List.append_assoc,
        List.length_append, List.length_cons, List.length_singleton]
      simp only [List.cons_append, List.nil_append, Option.some.injEq, Prod.mk.injEq, ConfigSource.mk.injEq, true_and,
        and_true]
      omega
    · rw [if_neg hescape] at hn ⊢
      rw [List.length_append, List.length_singleton] at hn
      rw [List.append_assoc, List.cons_append, List.nil_append, readSubsection,
        getNextChar_cons (by omega) fun _ => hhead]
      dsimp only
      rw [if_neg hc, if_neg fun h => hescape (.inl h), if_neg fun h => hescape (.inr h), ih hbytes' (by omega),
        List.append_assoc, List.length_append, List.length_singleton]
      simp only [List.cons_append, List.nil_append, Option.some.injEq, Prod.mk.injEq, ConfigSource.mk.injEq, true_and,
        and_true]
      omega

end Names

section Keys

variable {b i : Nat} {seen : Bool} {rest out : List UInt8}

lemma checkKey_name (hi : b < i) (h : checkKey b i seen rest = some out) :
    (∀ c ∈ rest, iskeychar c = true) ∧ out = rest.map tolower ∧
      (i = b + 1 → ∀ c ∈ rest.head?, isalpha c = true) := by
  induction rest generalizing i seen out with
  | nil =>
    obtain rfl := Option.some.inj h
    exact ⟨fun c hc => (List.not_mem_nil hc).elim, rfl, fun _ c hc => nomatch hc⟩
  | cons c rest ih =>
    rw [checkKey] at h
    rw [if_pos (.inr hi)] at h
    split at h
    · cases h
    rename_i hc
    obtain ⟨out', h', rfl⟩ := Option.map_eq_some_iff.mp h
    obtain ⟨hkeys, rfl, -⟩ := ih (by omega) h'
    rw [not_or, not_and, Bool.not_eq_false] at hc
    refine ⟨fun d hd => ?_, rfl, fun hfirst d hd => ?_⟩
    · rcases List.mem_cons.mp hd with rfl | hd
      · exact hc.1
      · exact hkeys d hd
    · obtain rfl := Option.some.inj hd
      have := hc.2 hfirst
      rwa [Bool.not_eq_false] at this

lemma checkKey_dot (hi : i ≤ b) : checkKey b i seen (dot :: rest) = (checkKey b (i + 1) true rest).map (dot :: ·) := by
  have hdot : (seen || decide (dot = dot)) = true := by simp
  rw [checkKey, hdot]
  rw [if_neg (by rintro (h | h); cases h; omega), if_neg (by decide)]

lemma checkKey_subsection {sub : List UInt8} (hi : i + sub.length ≤ b + 1)
    (h : checkKey b i true (sub ++ rest) = some out) :
    newline ∉ sub ∧ ∃ out', checkKey b (i + sub.length) true rest = some out' ∧ out = sub ++ out' := by
  induction sub generalizing i out with
  | nil => exact ⟨List.not_mem_nil, out, h, rfl⟩
  | cons c sub ih =>
    rw [List.length_cons] at hi ⊢
    rw [List.cons_append, checkKey, Bool.true_or] at h
    rw [if_neg (by rintro (h | h); cases h; omega)] at h
    split at h
    · cases h
    rename_i hc
    obtain ⟨out₁, h₁, rfl⟩ := Option.map_eq_some_iff.mp h
    obtain ⟨hsub, out', h', rfl⟩ := ih (by omega) h₁
    refine ⟨fun hmem => ?_, out', ?_, rfl⟩
    · rcases List.mem_cons.mp hmem with hmem | hmem
      · exact hc hmem.symm
      · exact hsub hmem
    · rwa [Nat.add_assoc, Nat.add_comm 1] at h'

lemma checkKey_section {sec : List UInt8} (hsec : dot ∉ sec) (hi : i + sec.length ≤ b)
    (h : checkKey b i false (sec ++ rest) = some out) :
    (∀ c ∈ sec, iskeychar c = true) ∧
      ∃ out', checkKey b (i + sec.length) false rest = some out' ∧ out = sec.map tolower ++ out' := by
  induction sec generalizing i out with
  | nil => exact ⟨fun c hc => (List.not_mem_nil hc).elim, out, h, rfl⟩
  | cons c sec ih =>
    rw [List.length_cons] at hi ⊢
    have hc : c ≠ dot := fun hc => hsec (hc ▸ List.mem_cons_self)
    have hseen : (false || decide (c = dot)) = false := by simpa using hc
    rw [List.cons_append, checkKey, hseen] at h
    rw [if_pos (.inl rfl)] at h
    split at h
    · cases h
    rename_i hkey
    rw [not_or, Bool.not_eq_false] at hkey
    obtain ⟨out₁, h₁, rfl⟩ := Option.map_eq_some_iff.mp h
    obtain ⟨hkeys, out', h', rfl⟩ := ih (fun hmem => hsec (List.mem_cons_of_mem _ hmem)) (by omega) h₁
    refine ⟨fun d hd => ?_, out', ?_, rfl⟩
    · rcases List.mem_cons.mp hd with rfl | hd
      · exact hkey.1
      · exact hkeys d hd
    · rwa [Nat.add_assoc, Nat.add_comm 1] at h'

lemma lastDot_some {key : List UInt8} {last : Nat} (h : lastDot key = some last) :
    ∃ base name, key = base ++ dot :: name ∧ base.length = last := by
  unfold lastDot at h
  split at h
  · rename_i hmem
    obtain ⟨s, t, heq, hnot⟩ := List.eq_append_cons_of_mem (List.mem_reverse.mpr hmem)
    obtain rfl := Option.some.inj h
    have hkey : key = t.reverse ++ dot :: s.reverse := by
      rw [← List.reverse_reverse key, heq]
      simp
    refine ⟨t.reverse, s.reverse, hkey, ?_⟩
    rw [heq, List.idxOf_append_of_notMem hnot, List.idxOf_cons_self, hkey]
    simp only [List.length_append, List.length_reverse, List.length_cons]
    omega
  · cases h

inductive KeyParts : List UInt8 → List UInt8 → Nat → Prop
  | plain {sec : List UInt8} {c : UInt8} {name : List UInt8} (hsec : ∀ c ∈ sec, iskeychar c = true) (hne : sec ≠ [])
      (hc : isalpha c = true) (hname : ∀ b ∈ name, iskeychar b = true) :
      KeyParts (sec ++ dot :: c :: name) (sec.map tolower ++ dot :: (c :: name).map tolower) sec.length
  | extended {sec sub : List UInt8} {c : UInt8} {name : List UInt8} (hsec : ∀ c ∈ sec, iskeychar c = true)
      (hsub : newline ∉ sub) (hc : isalpha c = true) (hname : ∀ b ∈ name, iskeychar b = true) :
      KeyParts (sec ++ dot :: sub ++ dot :: c :: name)
        (sec.map tolower ++ dot :: sub ++ dot :: (c :: name).map tolower) (sec ++ dot :: sub).length

lemma doParseConfigKey_parts {key store : List UInt8} {last : Nat} (h : doParseConfigKey key = some (store, last)) :
    KeyParts key store last := by
  unfold doParseConfigKey at h
  cases hlast : lastDot key with
  | none =>
    rw [hlast] at h
    cases h
  | some last' =>
    obtain ⟨base, name, rfl, rfl⟩ := lastDot_some hlast
    rw [hlast] at h
    dsimp only at h
    split at h
    · cases h
    rename_i hends
    obtain ⟨store', hcheck, heq⟩ := Option.map_eq_some_iff.mp h
    obtain ⟨rfl, rfl⟩ := Prod.mk.inj heq
    rw [not_or] at hends
    have hbase : base ≠ [] := fun hnil => hends.1 (by rw [hnil]; rfl)
    obtain ⟨c, name, rfl⟩ : ∃ c name', name = c :: name' := by
      refine List.exists_cons_of_ne_nil fun hnil => hends.2 ?_
      rw [hnil, List.length_append]
      exact rfl
    by_cases hdot : dot ∈ base
    · obtain ⟨sec, sub, rfl, hsec⟩ := List.eq_append_cons_of_mem hdot
      rw [List.append_assoc, List.cons_append] at hcheck
      have hlen : (sec ++ dot :: sub).length = sec.length + 1 + sub.length := by
        rw [List.length_append, List.length_cons]
        omega
      obtain ⟨hkeys, out₁, h₁, rfl⟩ := checkKey_section hsec (by omega) hcheck
      rw [Nat.zero_add, checkKey_dot (by omega)] at h₁
      obtain ⟨out₂, h₂, rfl⟩ := Option.map_eq_some_iff.mp h₁
      obtain ⟨hsub, out₃, h₃, rfl⟩ := checkKey_subsection (by omega) h₂
      rw [checkKey_dot (by omega)] at h₃
      obtain ⟨out₄, h₄, rfl⟩ := Option.map_eq_some_iff.mp h₃
      obtain ⟨hname, rfl, hfirst⟩ := checkKey_name (by omega) h₄
      have := KeyParts.extended hkeys hsub (hfirst (by omega) c rfl) (fun b hb => hname b (List.mem_cons_of_mem _ hb))
      simpa only [List.append_assoc, List.cons_append] using this
    · obtain ⟨hkeys, out₁, h₁, rfl⟩ := checkKey_section hdot (by omega) hcheck
      rw [Nat.zero_add, checkKey_dot le_rfl] at h₁
      obtain ⟨out₂, h₂, rfl⟩ := Option.map_eq_some_iff.mp h₁
      obtain ⟨hname, rfl, hfirst⟩ := checkKey_name (by omega) h₂
      exact .plain hkeys hbase (hfirst rfl c rfl) fun b hb => hname b (List.mem_cons_of_mem _ hb)

end Keys

section Files

variable {rest var : List UInt8} {n baselen : Nat}

def inFile (var : List UInt8) (baselen : Nat) : ParseState := ⟨utf8Bom.length, false, var, baselen⟩

lemma parseLoop_end : parseLoop (inFile var baselen) ⟨[], n, false⟩ = ([], true) := by
  rw [parseLoop, dif_neg (fun h => lt_irrefl _ h.1), if_neg (fun h => lt_irrefl _ h.1)]
  exact (if_pos rfl).trans (dif_pos rfl)

lemma parseLoop_newline (hn : n < INT_MAX) :
    parseLoop (inFile var baselen) ⟨newline :: rest, n, false⟩ = parseLoop (inFile var baselen) ⟨rest, n + 1, false⟩ := by
  have hnext : getNextChar ⟨newline :: rest, n, false⟩ = (newline, ⟨rest, n + 1, false⟩) :=
    getNextChar_cons hn fun h => absurd h (by decide)
  rw [parseLoop, dif_neg (fun h => lt_irrefl _ h.1), if_neg (fun h => lt_irrefl _ h.1), hnext]
  exact rfl

lemma parseLoop_tab (hn : n < INT_MAX) :
    parseLoop (inFile var baselen) ⟨tab :: rest, n, false⟩ = parseLoop (inFile var baselen) ⟨rest, n + 1, false⟩ := by
  have hnext : getNextChar ⟨tab :: rest, n, false⟩ = (tab, ⟨rest, n + 1, false⟩) :=
    getNextChar_cons hn fun h => absurd h (by decide)
  rw [parseLoop, dif_neg (fun h => lt_irrefl _ h.1), if_neg (fun h => lt_irrefl _ h.1), hnext]
  exact rfl

lemma parseLoop_section {cs : ConfigSource} (hn : n < INT_MAX)
    (hbase : getBaseVar [] ⟨rest, n + 1, false⟩ = some (var, cs)) (hvar : var ≠ []) :
    parseLoop .start ⟨openBracket :: rest, n, false⟩ = parseLoop (inFile (var ++ [dot]) (var.length + 1)) cs := by
  have hnext : getNextChar ⟨openBracket :: rest, n, false⟩ = (openBracket, ⟨rest, n + 1, false⟩) :=
    getNextChar_cons hn fun h => absurd h (by decide)
  have hfirst : (getNextChar ⟨openBracket :: rest, n, false⟩).1 = openBracket := by rw [hnext]
  have hlen : 0 < var.length := List.length_pos_iff.mpr hvar
  rw [parseLoop, dif_neg (by rw [hfirst]; decide), if_neg (by decide), if_neg (by rw [hfirst]; decide),
    if_neg (by rw [hfirst]; decide), if_neg (by rw [hfirst]; decide), if_pos hfirst]
  split
  · rename_i heq
    rw [hnext, hbase] at heq
    cases heq
  · rename_i var' cs' heq
    rw [hnext, hbase] at heq
    obtain ⟨rfl, rfl⟩ := Prod.mk.inj (Option.some.inj heq)
    exact if_neg (by omega)

lemma parseLoop_entry {c : UInt8} {entry : List UInt8 × Option (List UInt8)} {cs : ConfigSource} (hn : n < INT_MAX)
    (hc : isalpha c = true)
    (hvalue : getValue (var.take baselen ++ [tolower c]) ⟨rest, n + 1, false⟩ = (some entry, cs)) :
    parseLoop (inFile var baselen) ⟨c :: rest, n, false⟩ =
      (entry :: (parseLoop (inFile var baselen) cs).1, (parseLoop (inFile var baselen) cs).2) := by
  have hkey := iskeychar_of_isalpha hc
  have hnext : getNextChar ⟨c :: rest, n, false⟩ = (c, ⟨rest, n + 1, false⟩) :=
    getNextChar_cons hn fun h => absurd h (ne_of_iskeychar hkey rfl)
  have hfirst : (getNextChar ⟨c :: rest, n, false⟩).1 = c := by rw [hnext]
  have hspace : ¬ ((inFile var baselen).comment = true ∨ isspace c = true) := by
    rintro (h | h)
    · cases h
    · rw [isspace_of_iskeychar hkey] at h
      cases h
  have hcomment : ¬ (c = hash ∨ c = semicolon) :=
    fun h => h.elim (ne_of_iskeychar hkey rfl) (ne_of_iskeychar hkey rfl)
  have halpha : ¬ isalpha c = false := fun h => by rw [hc] at h; cases h
  rw [parseLoop, dif_neg (fun h => lt_irrefl _ h.1), if_neg (fun h => lt_irrefl _ h.1),
    if_neg (by rw [hfirst]; exact ne_of_iskeychar hkey rfl), if_neg (by rwa [hfirst]), if_neg (by rwa [hfirst]),
    if_neg (by rw [hfirst]; exact ne_of_iskeychar hkey rfl), if_neg (by rwa [hfirst])]
  have hvalue' : getValue ((inFile var baselen).var.take (inFile var baselen).baselen ++
      [tolower (getNextChar ⟨c :: rest, n, false⟩).1]) (getNextChar ⟨c :: rest, n, false⟩).2 = (some entry, cs) := by
    rw [hnext]
    exact hvalue
  split
  · rename_i heq
    rw [hvalue'] at heq
    cases heq
  · rename_i entry' cs' heq
    obtain ⟨hentry, rfl⟩ := Prod.mk.inj (hvalue'.symm.trans heq)
    obtain rfl := Option.some.inj hentry
    exact rfl

lemma parseLoop_writePair (hcomment : Prepared comment) {c : UInt8}
    {key name value : List UInt8} {len : Nat} (hkey : key.drop (len + 1) = c :: name) (hc : isalpha c = true)
    (hname : ∀ b ∈ name, iskeychar b = true) (hzero : (0 : UInt8) ∉ var.take baselen ++ (c :: name).map tolower)
    (hvalue : (0 : UInt8) ∉ value) (hn : n + (writePair key value comment len).length ≤ INT_MAX) :
    parseLoop (inFile var baselen) ⟨writePair key value comment len, n, false⟩ =
      ([(var.take baselen ++ (c :: name).map tolower, some value)], true) := by
  have htext : writePair key value comment len = tab :: c :: (name ++ space :: equals :: space :: (quoteOf value ++
      value.flatMap escapeChar ++ quoteOf value ++ comment.getD [] ++ [newline])) := by
    unfold writePair
    rw [hkey]
    simp only [List.append_assoc, List.cons_append, List.nil_append]
  rw [htext] at hn ⊢
  simp only [List.length_cons, List.length_append, List.length_nil] at hn
  have hsplit : var.take baselen ++ (c :: name).map tolower = var.take baselen ++ [tolower c] ++ name.map tolower := by
    simp
  obtain ⟨n', hget⟩ := @getValue_writePair (n + 2) comment hcomment (var.take baselen ++ [tolower c]) name value hname
    (hsplit ▸ hzero) hvalue (by omega)
  rw [parseLoop_tab (by omega), parseLoop_entry (by omega) hc hget, parseLoop_end, hsplit]

lemma getBaseVar_close {name : List UInt8} (hn : n < INT_MAX) :
    getBaseVar name ⟨closeBracket :: rest, n, false⟩ = some (name, ⟨rest, n + 1, false⟩) := by
  rw [getBaseVar, getNextChar_cons hn fun h => absurd h (by decide)]
  exact rfl

lemma getBaseVar_subsection {name sub : List UInt8} (hsub : newline ∉ sub)
    (hn : n + (escapeSubsection sub).length + 4 ≤ INT_MAX) :
    getBaseVar name ⟨space :: doubleQuote :: (escapeSubsection sub ++ doubleQuote :: closeBracket :: rest), n, false⟩ =
      some (name ++ dot :: sub, ⟨rest, n + (escapeSubsection sub).length + 4, false⟩) := by
  have hskip : ∀ rest, skipSpaces space ⟨doubleQuote :: rest, n + 1, false⟩ =
      some (doubleQuote, ⟨rest, n + 2, false⟩) := by
    intro rest
    rw [skipSpaces, getNextChar_cons (by omega) fun h => absurd h (by decide)]
    exact rfl
  have hspace : isspace space = true ∧ space ≠ closeBracket := by decide
  rw [getBaseVar, getNextChar_cons (by omega) fun h => absurd h (by decide)]
  dsimp only
  rw [if_neg Bool.false_ne_true, if_neg hspace.2, if_pos hspace.1, getExtendedBaseVar, hskip, Option.bind_some]
  dsimp only
  rw [if_neg (by decide), readSubsection_escape hsub (by omega), Option.bind_some]
  dsimp only
  rw [getNextChar_cons (by omega) fun h => absurd h (by decide)]
  dsimp only
  rw [if_pos rfl, List.append_assoc, Option.some.injEq, Prod.mk.injEq, ConfigSource.mk.injEq]
  refine ⟨rfl, rfl, by omega, rfl⟩

lemma tolower_ne_zero {c : UInt8} (h : c ≠ 0) : tolower c ≠ 0 := by
  unfold tolower
  split
  · exact fun hor => h (UInt8.or_eq_zero_iff.mp hor).1
  · exact h

lemma zero_notMem_map_tolower {bytes : List UInt8} (h : (0 : UInt8) ∉ bytes) : (0 : UInt8) ∉ bytes.map tolower := by
  intro hmem
  obtain ⟨c, hc, heq⟩ := List.mem_map.mp hmem
  refine tolower_ne_zero ?_ heq
  rintro rfl
  exact h hc

lemma dot_notMem {sec : List UInt8} (hsec : ∀ c ∈ sec, iskeychar c = true) : dot ∉ sec := by
  intro hmem
  have := hsec dot hmem
  revert this
  decide

lemma parse_header (hcomment : Prepared comment) {c : UInt8}
    {header key name value : List UInt8} {len : Nat}
    (hbase : ∀ rest, getBaseVar [] ⟨header ++ newline :: rest, 1, false⟩ =
      some (var, ⟨newline :: rest, 1 + header.length, false⟩))
    (hvar : var ≠ []) (hkey : key.drop (len + 1) = c :: name) (hc : isalpha c = true)
    (hname : ∀ b ∈ name, iskeychar b = true) (hzero : (0 : UInt8) ∉ var) (hzero' : (0 : UInt8) ∉ c :: name)
    (hvalue : (0 : UInt8) ∉ value) (hn : header.length + 2 + (writePair key value comment len).length ≤ INT_MAX) :
    gitParseSource (openBracket :: (header ++ newline :: writePair key value comment len)) =
      ([(var ++ dot :: (c :: name).map tolower, some value)], true) := by
  have htake : (var ++ [dot]).take (var.length + 1) = var ++ [dot] := List.take_of_length_le (by simp)
  have hall : (0 : UInt8) ∉ (var ++ [dot]).take (var.length + 1) ++ (c :: name).map tolower := by
    rw [htake, List.mem_append, List.mem_append, not_or, not_or]
    exact ⟨⟨hzero, by decide⟩, zero_notMem_map_tolower hzero'⟩
  rw [gitParseSource, parseLoop_section (by omega) (hbase _) hvar, parseLoop_newline (by omega),
    parseLoop_writePair hcomment hkey hc hname hall hvalue (by omega), htake, List.append_assoc]
  exact rfl

lemma parse_parts {key store value : List UInt8} {last : Nat} {comment : Option (List UInt8)}
    (hkey : KeyParts key store last) (hzero : (0 : UInt8) ∉ key) (hvalue : (0 : UInt8) ∉ value)
    (hcomment : Prepared comment)
    (hlen : (storeCreateSection key last ++ writePair key value comment last).length ≤ INT_MAX) :
    gitParseSource (storeCreateSection key last ++ writePair key value comment last) =
      ([(store, some value)], true) := by
  cases hkey with
  | @plain sec c name hsec hne hc hname =>
    have hdrop : (sec ++ dot :: c :: name).drop (sec.length + 1) = c :: name := by
      rw [List.drop_append, List.drop_eq_nil_of_le (by omega)]
      simp
    have hheader : storeCreateSection (sec ++ dot :: c :: name) sec.length =
        openBracket :: ((sec ++ [closeBracket]) ++ [newline]) := by
      unfold storeCreateSection
      dsimp only
      rw [List.take_left, if_neg (dot_notMem hsec), List.append_assoc, List.cons_append]
      exact rfl
    rw [hheader, List.cons_append, List.append_assoc, List.singleton_append] at hlen ⊢
    simp only [List.length_cons, List.length_append, List.length_nil] at hlen
    have hbase : ∀ rest, getBaseVar [] ⟨(sec ++ [closeBracket]) ++ newline :: rest, 1, false⟩ =
        some (sec.map tolower, ⟨newline :: rest, 1 + (sec ++ [closeBracket]).length, false⟩) := by
      intro rest
      rw [List.append_assoc, getBaseVar_append hsec (by omega), List.singleton_append,
        getBaseVar_close (by omega), List.length_append, List.length_singleton, Nat.add_assoc]
      exact rfl
    refine parse_header hcomment hbase (by rwa [Ne, List.map_eq_nil_iff]) hdrop hc hname ?_ ?_ hvalue ?_
    · exact zero_notMem_map_tolower fun h => hzero (List.mem_append_left _ h)
    · exact fun h => hzero (List.mem_append_right _ (List.mem_cons_of_mem _ h))
    · rw [List.length_append, List.length_singleton]
      omega
  | @extended sec sub c name hsec hsub hc hname =>
    have hdrop : (sec ++ dot :: sub ++ dot :: c :: name).drop ((sec ++ dot :: sub).length + 1) = c :: name := by
      rw [List.drop_append, List.drop_eq_nil_of_le (by omega)]
      simp
    have hheader : storeCreateSection (sec ++ dot :: sub ++ dot :: c :: name) (sec ++ dot :: sub).length =
        openBracket :: ((sec ++ space :: doubleQuote :: (escapeSubsection sub ++ [doubleQuote, closeBracket])) ++
          [newline]) := by
      unfold storeCreateSection
      dsimp only
      have hidx : (sec ++ dot :: sub).idxOf dot = sec.length := by
        rw [List.idxOf_append_of_notMem (dot_notMem hsec), List.idxOf_cons_self, Nat.add_zero]
      have hcut : (sec ++ dot :: sub).drop (sec.length + 1) = sub := by
        rw [List.drop_append, List.drop_eq_nil_of_le (by omega)]
        simp
      rw [List.take_left, if_pos (List.mem_append_right _ List.mem_cons_self), hidx, List.take_left, hcut]
      simp only [List.append_assoc, List.cons_append, List.nil_append]
    rw [hheader, List.cons_append, List.append_assoc, List.singleton_append] at hlen ⊢
    simp only [List.length_cons, List.length_append, List.length_nil] at hlen
    have hbase : ∀ rest, getBaseVar []
        ⟨(sec ++ space :: doubleQuote :: (escapeSubsection sub ++ [doubleQuote, closeBracket])) ++ newline :: rest,
          1, false⟩ =
        some (sec.map tolower ++ dot :: sub, ⟨newline :: rest,
          1 + (sec ++ space :: doubleQuote :: (escapeSubsection sub ++ [doubleQuote, closeBracket])).length, false⟩) := by
      intro rest
      have htext : (sec ++ space :: doubleQuote :: (escapeSubsection sub ++ [doubleQuote, closeBracket])) ++
          newline :: rest = sec ++ space :: doubleQuote :: (escapeSubsection sub ++ doubleQuote :: closeBracket ::
            newline :: rest) := by
        simp only [List.append_assoc, List.cons_append, List.nil_append]
      rw [htext, getBaseVar_append hsec (by omega), getBaseVar_subsection hsub (by omega), List.nil_append,
        Option.some.injEq, Prod.mk.injEq, ConfigSource.mk.injEq]
      refine ⟨rfl, rfl, ?_, rfl⟩
      simp only [List.length_cons, List.length_append, List.length_nil]
      omega
    have hstore : sec.map tolower ++ dot :: sub ++ dot :: (c :: name).map tolower =
        (sec.map tolower ++ dot :: sub) ++ dot :: (c :: name).map tolower := rfl
    rw [hstore]
    refine parse_header hcomment hbase (by simp) hdrop hc hname ?_ ?_ hvalue ?_
    · rw [List.mem_append, not_or]
      refine ⟨zero_notMem_map_tolower fun h => hzero ?_, fun h => hzero ?_⟩
      · exact List.mem_append_left _ (List.mem_append_left _ h)
      · exact List.mem_append_left _ (List.mem_append_right _ h)
    · exact fun h => hzero (List.mem_append_right _ (List.mem_cons_of_mem _ h))
    · simp only [List.length_cons, List.length_append, List.length_nil]
      omega

/-- A key and a value that are written come back, the key in its stored form, as long as the text is
not longer than the reader can count. -/
theorem parse_written {key store value : List UInt8} {last : Nat} {comment : Option (List UInt8)}
    (hkey : doParseConfigKey key = some (store, last)) (hzero : (0 : UInt8) ∉ key) (hvalue : (0 : UInt8) ∉ value)
    (hcomment : Prepared comment)
    (hlen : (storeCreateSection key last ++ writePair key value comment last).length ≤ INT_MAX) :
    gitParseSource (storeCreateSection key last ++ writePair key value comment last) =
      ([(store, some value)], true) :=
  parse_parts (doParseConfigKey_parts hkey) hzero hvalue hcomment hlen

theorem parse_written_sample :
    gitParseSource (storeCreateSection [0x41, dot, 0x78, doubleQuote, 0x79, dot, 0x5a] 5 ++
        writePair [0x41, dot, 0x78, doubleQuote, 0x79, dot, 0x5a] [space, 0x61, semicolon] (some [space, hash, 0x21]) 5) =
      ([([0x61, dot, 0x78, doubleQuote, 0x79, dot, 0x7a], some [space, 0x61, semicolon])], true) :=
  @parse_written _ _ [space, 0x61, semicolon] 5 _ (by decide) (by decide) (by decide)
    (@Prepared.given [hash, 0x21] _ (by decide)) (by decide)

lemma getBaseVar_long {name : List UInt8} {c : UInt8} {k : Nat} (hc : iskeychar c = true) (hn : n ≤ INT_MAX)
    (hk : INT_MAX < n + k) : getBaseVar name ⟨List.replicate k c ++ rest, n, false⟩ = none := by
  induction k generalizing name n with
  | zero => omega
  | succ k ih =>
    rw [List.replicate_succ, List.cons_append, getBaseVar]
    by_cases hlast : n = INT_MAX
    · have hfold : foldCr (c :: (List.replicate k c ++ rest)) = some (c, List.replicate k c ++ rest) :=
        if_neg fun h => ne_of_iskeychar hc rfl h.1
      have hnext : (getNextChar ⟨c :: (List.replicate k c ++ rest), n, false⟩).2.eof = true := by
        rw [getNextChar, hfold]
        dsimp only
        rw [if_pos (by omega)]
      exact if_pos hnext
    · rw [getNextChar_cons (by omega) fun h => absurd h (ne_of_iskeychar hc rfl)]
      dsimp only
      rw [if_neg Bool.false_ne_true, if_neg (ne_of_iskeychar hc rfl),
        if_neg (by rw [isspace_of_iskeychar hc]; exact Bool.false_ne_true),
        if_neg (fun h => by rw [hc] at h; cases h.1)]
      exact ih (by omega) (by omega)

lemma checkKey_replicate {b i k : Nat} {out : List UInt8} (hi : i + k ≤ b)
    (h : checkKey b (i + k) false rest = some out) :
    checkKey b i false (List.replicate k 0x61 ++ rest) = some (List.replicate k 0x61 ++ out) := by
  induction k generalizing i with
  | zero => exact h
  | succ k ih =>
    have hkey : ¬ (iskeychar 0x61 = false ∨ (i = b + 1 ∧ isalpha 0x61 = false)) := by
      rintro (h | ⟨-, h⟩) <;> revert h <;> decide
    have hrest := @ih (i + 1) (by omega) (by rw [← h]; congr 1; omega)
    rw [List.replicate_succ, List.cons_append, checkKey]
    rw [if_pos (.inl (by decide)), if_neg hkey]
    have hseen : (false || decide ((0x61 : UInt8) = dot)) = false := by decide
    rw [hseen, hrest]
    exact rfl

def longKey (k : Nat) : List UInt8 := List.replicate k 0x61 ++ [dot, 0x62]

lemma doParseConfigKey_longKey {k : Nat} (hk : 0 < k) : doParseConfigKey (longKey k) = some (longKey k, k) := by
  have hlen : (longKey k).length = k + 2 := by simp [longKey]
  have hidx : (longKey k).reverse.idxOf dot = 1 := by
    rw [longKey, List.reverse_append]
    exact rfl
  have hlast : lastDot (longKey k) = some k := by
    unfold lastDot
    rw [if_pos (by simp [longKey]), hidx, hlen]
    exact rfl
  have hcheck : checkKey k 0 false (longKey k) = some (longKey k) := by
    refine checkKey_replicate (by omega) ?_
    rw [Nat.zero_add, checkKey_dot le_rfl, checkKey, if_pos (.inr (by omega)), if_neg, checkKey]
    · exact rfl
    · rintro (h | ⟨-, h⟩) <;> revert h <;> decide
  unfold doParseConfigKey
  rw [hlast]
  dsimp only
  rw [if_neg (by omega), hcheck]
  exact rfl

lemma parse_longKey {k : Nat} (hk : INT_MAX ≤ k) :
    gitParseSource (storeCreateSection (longKey k) k ++ writePair (longKey k) [] none k) = ([], false) := by
  have htake : (longKey k).take k = List.replicate k 0x61 := by
    have : (List.replicate k (0x61 : UInt8)).length = k := List.length_replicate
    conv_lhs => rw [longKey, ← this]
    rw [this]
    exact List.take_left' this
  have hheader : storeCreateSection (longKey k) k = openBracket :: (List.replicate k 0x61 ++ [closeBracket, newline]) := by
    unfold storeCreateSection
    dsimp only
    rw [htake, if_neg]
    · exact rfl
    · intro hmem
      exact absurd (List.eq_of_mem_replicate hmem) (by decide)
  have hnext : ∀ rest, getNextChar ⟨openBracket :: rest, 0, false⟩ = (openBracket, ⟨rest, 0 + 1, false⟩) :=
    fun rest => getNextChar_cons (by decide) fun h => absurd h (by decide)
  have hfirst : ∀ rest, (getNextChar ⟨openBracket :: rest, 0, false⟩).1 = openBracket := fun rest => by rw [hnext]
  rw [hheader, List.cons_append, List.append_assoc, gitParseSource, parseLoop, dif_neg (by rw [hfirst]; decide),
    if_neg (by decide), if_neg (by rw [hfirst]; decide), if_neg (by rw [hfirst]; decide),
    if_neg (by rw [hfirst]; decide), if_pos (hfirst _)]
  split
  · rfl
  · rename_i heq
    rw [hnext, getBaseVar_long (by decide) (by decide) (by omega)] at heq
    cases heq

/-- A key that is accepted and cannot be read back: its section has 2 ^ 31 letters. -/
theorem parse_written_longKey :
    doParseConfigKey (longKey (2 ^ 31)) = some (longKey (2 ^ 31), 2 ^ 31) ∧
      gitParseSource (storeCreateSection (longKey (2 ^ 31)) (2 ^ 31) ++
        writePair (longKey (2 ^ 31)) [] none (2 ^ 31)) = ([], false) :=
  ⟨doParseConfigKey_longKey (by decide), parse_longKey (by decide)⟩

end Files

end GitCore.Config
