import GitCore.Lib.Bytes
import Mathlib.Data.List.GetD
import Mathlib.Data.List.TakeWhile
import Mathlib.Tactic

/-!
# Quoting for the shell

`sq_quote_buf`, `sq_dequote` and `sq_dequote_to_strvec` of `quote.c`. The decoder writes into the buffer that it reads; it
is compared with one that reads a list.
-/

namespace GitCore.Quote

def quote : UInt8 := 39

def backslash : UInt8 := 92

def needBsQuote (c : UInt8) : Bool := c = quote ∨ c = 33

def isspace (c : UInt8) : Bool := c = 32 ∨ c = 9 ∨ c = 10 ∨ c = 13

lemma length_dropWhile_lt {src : List UInt8} (hne : src ≠ []) :
    ((src.dropWhile fun c => !needBsQuote c).dropWhile needBsQuote).length < src.length := by
  obtain ⟨c, src, rfl⟩ := List.exists_cons_of_ne_nil hne
  have hle : ∀ p (l : List UInt8), (l.dropWhile p).length ≤ l.length := fun p l => (l.dropWhile_sublist p).length_le
  cases hc : needBsQuote c with
  | false =>
    rw [List.dropWhile_cons_of_pos (by simp [hc])]
    exact Nat.lt_succ_of_le ((hle _ _).trans (hle _ _))
  | true =>
    rw [List.dropWhile_cons_of_neg (by simp [hc]), List.dropWhile_cons_of_pos hc]
    exact Nat.lt_succ_of_le (hle _ _)

/-- The loop of `sq_quote_buf`: bytes that need no backslash, and then those that do. -/
def sqQuoteLoop (src : List UInt8) : List UInt8 :=
  if _hne : src = [] then []
  else
    let rest := src.dropWhile fun c => !needBsQuote c
    (src.takeWhile fun c => !needBsQuote c) ++
      (rest.takeWhile needBsQuote).flatMap (fun c => [quote, backslash, c, quote]) ++
      sqQuoteLoop (rest.dropWhile needBsQuote)
termination_by src.length
decreasing_by exact length_dropWhile_lt _hne

def sqQuoteBuf (dst src : List UInt8) : List UInt8 := dst ++ [quote] ++ sqQuoteLoop src ++ [quote]

def byteAt (buf : List UInt8) (i : Nat) : UInt8 := buf.getD i 0

def cString (buf : List UInt8) (i : Nat) : List UInt8 := (buf.drop i).takeWhile (· ≠ 0)

lemma lt_of_byteAt {buf : List UInt8} {i : Nat} (h : byteAt buf i ≠ 0) : i < buf.length := by
  by_contra hge
  exact h (List.getD_eq_default _ _ (not_lt.mp hge))

/-- The loop of `sq_dequote_step`: the buffer and `*next`, or nothing on failure. Without `next` a string has to end with
its closing quote. -/
def sqDequoteLoop (buf : List UInt8) (dst src : Nat) (next : Bool) : Option (List UInt8 × Option Nat) :=
  let c := byteAt buf (src + 1)
  if _hc : c = 0 then none
  else if c ≠ quote then sqDequoteLoop (buf.set dst c) (dst + 1) (src + 1) next
  else if _hend : byteAt buf (src + 2) = 0 then some (buf.set dst 0, none)
  else if byteAt buf (src + 2) = backslash ∧ needBsQuote (byteAt buf (src + 3)) ∧ byteAt buf (src + 4) = quote then
    sqDequoteLoop (buf.set dst (byteAt buf (src + 3))) (dst + 1) (src + 4) next
  else if !next then none
  else some (buf.set dst 0, some (src + 2))
termination_by buf.length - src
decreasing_by
  all_goals
    have := lt_of_byteAt _hc
    rw [List.length_set]
    omega

def sqDequoteStep (buf : List UInt8) (arg : Nat) (next : Bool) : Option (List UInt8 × Option Nat) :=
  if byteAt buf arg ≠ quote then none else sqDequoteLoop buf arg arg next

def sqDequote (arg : List UInt8) : Option (List UInt8) := (sqDequoteStep arg 0 false).map fun result => cString result.1 0

/-- `do { c = *++next; } while (isspace(c));` -/
def skipSpaces (buf : List UInt8) (next : Nat) : Nat :=
  if _h : isspace (byteAt buf (next + 1)) then skipSpaces buf (next + 1) else next + 1
termination_by buf.length - next
decreasing_by
  have : next + 1 < buf.length := lt_of_byteAt fun h0 => by
    rw [h0] at _h
    exact absurd _h (by decide)
  omega

lemma lt_skipSpaces (buf : List UInt8) (next : Nat) : next < skipSpaces buf next := by
  induction hn : buf.length - next using Nat.strong_induction_on generalizing next with
  | _ n ih =>
    rw [skipSpaces]
    split_ifs with h
    · have hlt : next + 1 < buf.length := lt_of_byteAt fun h0 => by
        rw [h0] at h
        exact absurd h (by decide)
      exact (Nat.lt_succ_self next).trans (ih _ (by omega) (next + 1) rfl)
    · exact Nat.lt_succ_self next

lemma sqDequoteLoop_next {buf buf' : List UInt8} {dst src n : Nat} {next : Bool}
    (h : sqDequoteLoop buf dst src next = some (buf', some n)) :
    buf'.length = buf.length ∧ src < n ∧ n < buf.length := by
  induction hm : buf.length - src using Nat.strong_induction_on generalizing buf dst src with
  | _ m ih =>
    rw [sqDequoteLoop] at h
    split_ifs at h with hc hplain hend hescape hnext
    · have hlt := lt_of_byteAt hc
      obtain ⟨hlen, hsrc, hn⟩ := ih _ (by rw [List.length_set]; omega) h rfl
      rw [List.length_set] at hlen hn
      exact ⟨hlen, by omega, hn⟩
    · cases h
    · have hlt := lt_of_byteAt hc
      obtain ⟨hlen, hsrc, hn⟩ := ih _ (by rw [List.length_set]; omega) h rfl
      rw [List.length_set] at hlen hn
      exact ⟨hlen, by omega, hn⟩
    · cases h
      exact ⟨List.length_set, by omega, lt_of_byteAt hend⟩

/-- The loop of `sq_dequote_to_strvec`: what it returns, and the strings that it has pushed. -/
def sqDequoteWords (buf : List UInt8) (next : Nat) (array : List (List UInt8)) : Int × List (List UInt8) :=
  match h : sqDequoteStep buf next true with
  | none => (-1, array)
  | some (buf', none) => (0, array ++ [cString buf' next])
  | some (buf', some n) =>
    if isspace (byteAt buf' n) then sqDequoteWords buf' (skipSpaces buf' n) (array ++ [cString buf' next]) else (-1, array)
termination_by buf.length - next
decreasing_by
  unfold sqDequoteStep at h
  split_ifs at h
  obtain ⟨hlen, hlt, hn⟩ := sqDequoteLoop_next h
  have := lt_skipSpaces buf' n
  omega

section Step

variable {buf buf' : List UInt8} {next : Nat} {array : List (List UInt8)}

lemma sqDequoteWords_none (h : sqDequoteStep buf next true = none) : sqDequoteWords buf next array = (-1, array) := by
  rw [sqDequoteWords]
  split <;> simp_all

lemma sqDequoteWords_last (h : sqDequoteStep buf next true = some (buf', none)) :
    sqDequoteWords buf next array = (0, array ++ [cString buf' next]) := by
  rw [sqDequoteWords]
  split <;> simp_all

lemma sqDequoteWords_more {n : Nat} (h : sqDequoteStep buf next true = some (buf', some n)) :
    sqDequoteWords buf next array =
      if isspace (byteAt buf' n) then sqDequoteWords buf' (skipSpaces buf' n) (array ++ [cString buf' next])
      else (-1, array) := by
  rw [sqDequoteWords]
  split <;> simp_all

end Step

def sqDequoteToStrvec (arg : List UInt8) : Int × List (List UInt8) :=
  if byteAt arg 0 = 0 then (0, []) else sqDequoteWords arg 0 []

def isEscape (rest : List UInt8) : Bool :=
  rest.getD 0 0 = backslash ∧ needBsQuote (rest.getD 1 0) ∧ rest.getD 2 0 = quote

lemma isEscape_iff {rest : List UInt8} : isEscape rest ↔
    rest.getD 0 0 = backslash ∧ needBsQuote (rest.getD 1 0) ∧ rest.getD 2 0 = quote := by
  rw [isEscape, decide_eq_true_eq]

lemma exists_of_isEscape {rest : List UInt8} (h : isEscape rest) :
    ∃ c rest', rest = backslash :: c :: quote :: rest' ∧ needBsQuote c := by
  obtain ⟨hb, hc, hq⟩ := isEscape_iff.mp h
  match rest with
  | [] => exact absurd hb (by decide)
  | [_] => exact absurd (show (0 : UInt8) = quote from hq) (by decide)
  | [_, _] => exact absurd (show (0 : UInt8) = quote from hq) (by decide)
  | b :: c :: q :: rest' => exact ⟨c, rest', by rw [show b = backslash from hb, show q = quote from hq], hc⟩

def readQuoted : List UInt8 → Option (List UInt8 × List UInt8)
  | [] => none
  | c :: rest =>
    if c ≠ quote then (readQuoted rest).map fun (word, tail) => (c :: word, tail)
    else if isEscape rest then (readQuoted (rest.drop 3)).map fun (word, tail) => (rest.getD 1 0 :: word, tail)
    else some ([], rest)
termination_by text => text.length
decreasing_by
  · exact Nat.lt_succ_self _
  · rw [List.length_drop, List.length_cons]
    omega

lemma readQuoted_sublist {text word tail : List UInt8} (h : readQuoted text = some (word, tail)) :
    (∀ c ∈ word, c ∈ text) ∧ (∀ c ∈ tail, c ∈ text) ∧ tail.length < text.length := by
  induction hn : text.length using Nat.strong_induction_on generalizing text word with
  | _ n ih =>
    cases text with
    | nil =>
      rw [readQuoted] at h
      cases h
    | cons c rest =>
      rw [readQuoted] at h
      split_ifs at h with hc hesc
      · obtain ⟨⟨word', tail'⟩, hread, heq⟩ := Option.map_eq_some_iff.mp h
        obtain ⟨rfl, rfl⟩ := Prod.mk.inj heq
        obtain ⟨hword, htail, hlt⟩ := ih _ (by simp [← hn]) hread rfl
        refine ⟨fun x hx => ?_, fun x hx => List.mem_cons_of_mem _ (htail x hx), by simp only [List.length_cons] at hn; omega⟩
        obtain rfl | hx := List.mem_cons.mp hx
        · exact List.mem_cons_self
        · exact List.mem_cons_of_mem _ (hword x hx)
      · obtain ⟨⟨word', tail'⟩, hread, heq⟩ := Option.map_eq_some_iff.mp h
        obtain ⟨rfl, rfl⟩ := Prod.mk.inj heq
        obtain ⟨hword, htail, hlt⟩ := ih (rest.drop 3).length (by rw [← hn, List.length_drop, List.length_cons]; omega) hread rfl
        have hin : ∀ x ∈ rest.drop 3, x ∈ c :: rest := fun x hx => List.mem_cons_of_mem _ (List.mem_of_mem_drop hx)
        refine ⟨fun x hx => ?_, fun x hx => hin x (htail x hx), ?_⟩
        · obtain rfl | hx := List.mem_cons.mp hx
          · refine List.mem_cons_of_mem _ ?_
            have hlong : 1 < rest.length := by
              by_contra hshort
              rw [isEscape, List.getD_eq_default rest 0 (n := 2) (by omega)] at hesc
              exact absurd hesc (by simp [quote])
            rw [List.getD_eq_getElem _ _ hlong]
            exact List.getElem_mem hlong
          · exact hin x (hword x hx)
        · rw [List.length_drop] at hlt
          simp only [List.length_cons] at hn
          omega
      · obtain ⟨rfl, rfl⟩ := Prod.mk.inj (Option.some.inj h)
        exact ⟨by simp, fun x hx => List.mem_cons_of_mem _ hx, by simp [← hn]⟩

def readWords : List UInt8 → Int × List (List UInt8)
  | [] => (-1, [])
  | c :: rest =>
    if c ≠ quote then (-1, [])
    else match h : readQuoted rest with
      | none => (-1, [])
      | some (word, []) => (0, [word])
      | some (word, s :: tail) =>
        if isspace s then
          let (result, words) := readWords (tail.dropWhile isspace)
          (result, word :: words)
        else (-1, [])
termination_by text => text.length
decreasing_by
  have hlt := (readQuoted_sublist h).2.2
  have hle := (tail.dropWhile_sublist isspace).length_le
  simp only [List.length_cons] at *
  omega

lemma readWords_none {rest : List UInt8} (h : readQuoted rest = none) : readWords (quote :: rest) = (-1, []) := by
  rw [readWords, if_neg (not_not.mpr rfl)]
  split <;> simp_all

lemma readWords_last {rest word : List UInt8} (h : readQuoted rest = some (word, [])) :
    readWords (quote :: rest) = (0, [word]) := by
  rw [readWords, if_neg (not_not.mpr rfl)]
  split <;> simp_all

lemma readWords_more {rest word tail : List UInt8} {s : UInt8} (h : readQuoted rest = some (word, s :: tail)) :
    readWords (quote :: rest) =
      if isspace s then
        ((readWords (tail.dropWhile isspace)).1, word :: (readWords (tail.dropWhile isspace)).2)
      else (-1, []) := by
  rw [readWords, if_neg (not_not.mpr rfl)]
  split <;> simp_all

def escape (c : UInt8) : List UInt8 := if needBsQuote c then [quote, backslash, c, quote] else [c]

lemma sqQuoteLoop_eq (src : List UInt8) : sqQuoteLoop src = src.flatMap escape := by
  induction hn : src.length using Nat.strong_induction_on generalizing src with
  | _ n ih =>
    rw [sqQuoteLoop]
    split_ifs with hnil
    · rw [hnil]
      rfl
    · have hplain : ∀ l : List UInt8, (∀ c ∈ l, needBsQuote c = false) → l.flatMap escape = l := fun l hl => by
        have hsame : l.flatMap escape = l.flatMap fun c => [c] :=
          List.flatMap_congr fun c hc => if_neg (by rw [hl c hc]; decide)
        rw [hsame, List.flatMap_singleton']
      have hspecial : ∀ l : List UInt8, (∀ c ∈ l, needBsQuote c) →
          l.flatMap escape = l.flatMap fun c => [quote, backslash, c, quote] :=
        fun l hl => List.flatMap_congr fun c hc => if_pos (hl c hc)
      conv_rhs => rw [← src.takeWhile_append_dropWhile (p := fun c => !needBsQuote c),
        ← (src.dropWhile fun c => !needBsQuote c).takeWhile_append_dropWhile (p := needBsQuote)]
      dsimp only
      rw [List.flatMap_append, List.flatMap_append,
        hplain _ fun c hc => by simpa using List.mem_takeWhile_imp hc, hspecial _ fun c hc => List.mem_takeWhile_imp hc,
        ih _ (hn ▸ length_dropWhile_lt hnil) _ rfl, List.append_assoc]

section Segments

variable {done gap rest : List UInt8}

lemma byteAt_segments (i : Nat) : byteAt (done ++ gap ++ rest) (done.length + gap.length + i) = rest.getD i 0 := by
  rw [byteAt, List.getD_append_right _ _ _ _ (by rw [List.length_append]; omega), List.length_append]
  congr 1
  omega

lemma set_segments (g c : UInt8) (gs : List UInt8) : (done ++ g :: gs ++ rest).set done.length c =
    (done ++ [c]) ++ gs ++ rest := by
  simp

lemma sqDequoteLoop_segments {k : Nat} (hgap : gap.length = k + 1) (hrest : 0 ∉ rest) (next : Bool) :
    (readQuoted rest = none → sqDequoteLoop (done ++ gap ++ rest) done.length (done.length + k) next = none) ∧
      ∀ word tail, readQuoted rest = some (word, tail) → ∃ gap',
        sqDequoteLoop (done ++ gap ++ rest) done.length (done.length + k) next =
          if tail = [] then some (done ++ word ++ 0 :: gap' ++ tail, none)
          else if next then
            some (done ++ word ++ 0 :: gap' ++ tail, some (done ++ word ++ 0 :: gap').length)
          else none := by
  induction hn : rest.length using Nat.strong_induction_on generalizing done gap rest k with
  | _ n ih =>
    obtain ⟨g, gs, rfl⟩ := List.exists_cons_of_ne_nil (List.ne_nil_of_length_eq_add_one hgap)
    obtain rfl : k = gs.length := (Nat.succ.inj hgap).symm
    have hbyte : ∀ i, byteAt (done ++ g :: gs ++ rest) (done.length + gs.length + (i + 1)) = rest.getD i 0 := fun i => by
      rw [← byteAt_segments]
      congr 1
      simp only [List.length_cons]
      omega
    rw [sqDequoteLoop]
    simp only [hbyte 0, hbyte 1, hbyte 2, hbyte 3, set_segments]
    cases rest with
    | nil =>
      rw [readQuoted]
      exact ⟨fun _ => rfl, fun _ _ h => nomatch h⟩
    | cons c rest =>
      have hc : c ≠ 0 := fun h0 => hrest (h0 ▸ List.mem_cons_self)
      have hrest' : 0 ∉ rest := fun h0 => hrest (List.mem_cons_of_mem _ h0)
      simp only [List.getD_cons_zero, List.getD_cons_succ, dif_neg hc]
      rw [readQuoted]
      by_cases hplain : c ≠ quote
      · rw [if_pos hplain, if_pos hplain]
        have hstep := @ih rest.length (by simp [← hn]) (done ++ [c]) (gs ++ [c]) rest gs.length (by simp) hrest' rfl
        have heq : sqDequoteLoop (done ++ [c] ++ gs ++ c :: rest) (done.length + 1) (done.length + gs.length + 1) next =
            sqDequoteLoop (done ++ [c] ++ (gs ++ [c]) ++ rest) (done ++ [c]).length ((done ++ [c]).length + gs.length)
              next := by
          congr 1 <;> (simp; try omega)
        rw [heq]
        refine ⟨fun hnone => hstep.1 (Option.map_eq_none_iff.mp hnone), fun word tail hsome => ?_⟩
        obtain ⟨⟨word', tail'⟩, hread, hpair⟩ := Option.map_eq_some_iff.mp hsome
        obtain ⟨rfl, rfl⟩ := Prod.mk.inj hpair
        obtain ⟨gap', hloop⟩ := hstep.2 word' tail' hread
        exact ⟨gap', by simpa using hloop⟩
      · rw [if_neg hplain, if_neg hplain]
        by_cases hesc : isEscape rest
        · obtain ⟨c', rest', rfl, hc'⟩ := exists_of_isEscape hesc
          have hrest'' : 0 ∉ rest' := fun h0 => hrest' (by simp [h0])
          have hstep := @ih rest'.length (by simp only [← hn, List.length_cons]; omega) (done ++ [c'])
            (gs ++ [c, backslash, c', quote]) rest' (gs.length + 3) (by simp) hrest'' rfl
          have heq : sqDequoteLoop (done ++ [c'] ++ gs ++ c :: backslash :: c' :: quote :: rest') (done.length + 1)
              (done.length + gs.length + 4) next = sqDequoteLoop (done ++ [c'] ++ (gs ++ [c, backslash, c', quote]) ++ rest')
                (done ++ [c']).length ((done ++ [c']).length + (gs.length + 3)) next := by
            congr 1 <;> (simp; try omega)
          have hne : ¬(backslash :: c' :: quote :: rest').getD 0 0 = 0 := fun h0 => absurd (show backslash = 0 from h0) (by decide)
          rw [if_pos hesc, dif_neg hne, if_pos (isEscape_iff.mp hesc)]
          simp only [List.getD_cons_zero, List.getD_cons_succ, List.drop_succ_cons, List.drop_zero]
          rw [heq]
          refine ⟨fun hnone => hstep.1 (Option.map_eq_none_iff.mp hnone), fun word tail hsome => ?_⟩
          obtain ⟨⟨word', tail'⟩, hread, hpair⟩ := Option.map_eq_some_iff.mp hsome
          obtain ⟨rfl, rfl⟩ := Prod.mk.inj hpair
          obtain ⟨gap', hloop⟩ := hstep.2 word' tail' hread
          exact ⟨gap', by simpa using hloop⟩
        · rw [if_neg hesc]
          refine ⟨fun hnone => absurd hnone (by simp), fun word tail hsome => ?_⟩
          obtain ⟨rfl, rfl⟩ := Prod.mk.inj (Option.some.inj hsome)
          refine ⟨gs ++ [c], ?_⟩
          cases rest with
          | nil => simp
          | cons x rest =>
            have hx : ¬(x :: rest).getD 0 0 = 0 := fun h0 => hrest' (h0 ▸ List.mem_cons_self)
            rw [dif_neg hx, if_neg (isEscape_iff.not.mp hesc), if_neg (List.cons_ne_nil _ _)]
            cases next
            · rfl
            · simp
              omega

end Segments

lemma skipSpaces_append (front tail : List UInt8) (s : UInt8) :
    skipSpaces (front ++ s :: tail) front.length = (front ++ s :: tail.takeWhile isspace).length := by
  induction tail generalizing front s with
  | nil =>
    have hend : byteAt (front ++ [s]) (front.length + 1) = 0 := List.getD_eq_default _ _ (by simp)
    rw [skipSpaces, hend, dif_neg (by decide)]
    simp
  | cons c tail ih =>
    have hbyte : byteAt (front ++ s :: c :: tail) (front.length + 1) = c := by
      rw [byteAt, List.getD_append_right _ _ _ _ (by omega), Nat.add_sub_cancel_left]
      rfl
    rw [skipSpaces, hbyte]
    split_ifs with hc
    · have hstep := ih (front ++ [s]) c
      rw [List.takeWhile_cons_of_pos hc]
      simpa [Nat.add_assoc] using hstep
    · rw [List.takeWhile_cons_of_neg hc]
      simp

lemma cString_append {front word gap tail : List UInt8} (hword : 0 ∉ word) :
    cString (front ++ word ++ 0 :: gap ++ tail) front.length = word := by
  rw [cString, List.append_assoc, List.append_assoc, List.drop_left, List.takeWhile_append_of_pos]
  · simp
  · intro c hc
    simp only [ne_eq, decide_eq_true_eq]
    rintro rfl
    exact hword hc

lemma sqDequoteWords_append (front text : List UInt8) (htext : 0 ∉ text) (array : List (List UInt8)) :
    sqDequoteWords (front ++ text) front.length array = ((readWords text).1, array ++ (readWords text).2) := by
  induction hn : text.length using Nat.strong_induction_on generalizing front text array with
  | _ n ih =>
    have hbyte : byteAt (front ++ text) front.length = text.getD 0 0 := by
      rw [byteAt, List.getD_append_right _ _ _ _ le_rfl, Nat.sub_self]
    cases text with
    | nil =>
      rw [sqDequoteWords_none (if_pos (by rw [hbyte]; decide)), readWords, List.append_nil]
    | cons c rest =>
      have hrest : 0 ∉ rest := fun h0 => htext (List.mem_cons_of_mem _ h0)
      by_cases hc : c ≠ quote
      · rw [sqDequoteWords_none (if_pos (by rw [hbyte]; exact hc)), readWords, if_pos hc, List.append_nil]
      · obtain rfl := not_not.mp hc
        have hloop : sqDequoteStep (front ++ quote :: rest) front.length true =
            sqDequoteLoop (front ++ [quote] ++ rest) front.length (front.length + 0) true := by
          rw [sqDequoteStep, if_neg (by rw [hbyte]; exact hc), List.append_assoc]
          rfl
        obtain ⟨hnone, hsome⟩ := @sqDequoteLoop_segments front [quote] rest 0 rfl hrest true
        rw [← hloop] at hnone hsome
        cases hread : readQuoted rest with
        | none => rw [sqDequoteWords_none (hnone hread), readWords_none hread, List.append_nil]
        | some result =>
          obtain ⟨word, tail⟩ := result
          obtain ⟨gap', hstep⟩ := hsome word tail hread
          obtain ⟨hword, htail, hlt⟩ := readQuoted_sublist hread
          have hword0 : 0 ∉ word := fun h0 => hrest (hword 0 h0)
          cases tail with
          | nil =>
            rw [if_pos rfl] at hstep
            rw [sqDequoteWords_last hstep, readWords_last hread, cString_append hword0]
          | cons s tail =>
            rw [if_neg (List.cons_ne_nil _ _), if_pos rfl] at hstep
            have hs : byteAt (front ++ word ++ 0 :: gap' ++ s :: tail) (front ++ word ++ 0 :: gap').length = s := by
              rw [byteAt, List.getD_append_right _ _ _ _ le_rfl, Nat.sub_self]
              rfl
            rw [sqDequoteWords_more hstep, readWords_more hread, hs, cString_append hword0]
            split_ifs with hspace
            · have htail0 : 0 ∉ tail.dropWhile isspace := fun h0 =>
                hrest (htail 0 (List.mem_cons_of_mem _ ((tail.dropWhile_sublist isspace).subset h0)))
              have hle := (tail.dropWhile_sublist isspace).length_le
              have hnext := ih _ (by simp only [← hn, List.length_cons] at hlt ⊢; omega)
                (front ++ word ++ 0 :: gap' ++ s :: tail.takeWhile isspace) _ htail0 (array ++ [word]) rfl
              rw [← skipSpaces_append, List.append_assoc, List.cons_append, List.takeWhile_append_dropWhile] at hnext
              rw [hnext]
              simp
            · simp

lemma readQuoted_flatMap (s : List UInt8) {tail : List UInt8} (htail : isEscape tail = false) :
    readQuoted (s.flatMap escape ++ quote :: tail) = some (s, tail) := by
  induction s with
  | nil =>
    rw [List.flatMap_nil, List.nil_append, readQuoted, if_neg (not_not.mpr rfl), htail]
    rfl
  | cons c s ih =>
    rw [List.flatMap_cons, escape, List.append_assoc]
    split_ifs with hc
    · change readQuoted (quote :: backslash :: c :: quote :: (s.flatMap escape ++ quote :: tail)) = _
      have hesc : isEscape (backslash :: c :: quote :: (s.flatMap escape ++ quote :: tail)) :=
        isEscape_iff.mpr ⟨rfl, hc, rfl⟩
      rw [readQuoted, if_neg (not_not.mpr rfl), if_pos hesc]
      change (readQuoted (s.flatMap escape ++ quote :: tail)).map _ = _
      rw [ih]
      rfl
    · have hplain : c ≠ quote := fun hq => hc (by rw [hq]; decide)
      change readQuoted (c :: (s.flatMap escape ++ quote :: tail)) = _
      rw [readQuoted, if_pos hplain, ih]
      rfl

def joined (words : List (List UInt8)) : List UInt8 := [32].intercalate (words.map (sqQuoteBuf []))

lemma joined_cons (word : List UInt8) (words : List (List UInt8)) :
    joined (word :: words) = quote :: (word.flatMap escape ++ quote :: (if words = [] then [] else 32 :: joined words)) := by
  cases words with
  | nil => simp [joined, sqQuoteBuf, sqQuoteLoop_eq]
  | cons word' words => simp [joined, sqQuoteBuf, sqQuoteLoop_eq, List.intercalate]

lemma readWords_joined {words : List (List UInt8)} (hne : words ≠ []) : readWords (joined words) = (0, words) := by
  induction words with
  | nil => exact absurd rfl hne
  | cons word words ih =>
    rw [joined_cons]
    by_cases hlast : words = []
    · rw [if_pos hlast, readWords_last (readQuoted_flatMap word rfl), hlast]
    · rw [if_neg hlast]
      have hquoted : readQuoted (word.flatMap escape ++ quote :: 32 :: joined words) = some (word, 32 :: joined words) :=
        readQuoted_flatMap word (decide_eq_false fun h => absurd (show (32 : UInt8) = backslash from h.1) (by decide))
      have hstart : (joined words).dropWhile isspace = joined words := by
        obtain ⟨word', words', rfl⟩ := List.exists_cons_of_ne_nil hlast
        rw [joined_cons, List.dropWhile_cons_of_neg (by decide)]
      rw [readWords_more hquoted, if_pos (by decide), hstart, ih hlast]

lemma zero_notMem_joined {words : List (List UInt8)} (h : ∀ word ∈ words, 0 ∉ word) : 0 ∉ joined words := by
  induction words with
  | nil => exact List.not_mem_nil
  | cons word words ih =>
    have hescape : 0 ∉ word.flatMap escape := fun hmem => by
      obtain ⟨c, hc, h0⟩ := List.mem_flatMap.mp hmem
      rw [escape] at h0
      split_ifs at h0 with hneed
      · simp only [List.mem_cons, List.not_mem_nil, or_false, quote, backslash] at h0
        obtain h0 | h0 | h0 | h0 := h0
        · exact absurd h0 (by decide)
        · exact absurd h0 (by decide)
        · exact h word List.mem_cons_self (h0 ▸ hc)
        · exact absurd h0 (by decide)
      · exact h word List.mem_cons_self (List.mem_singleton.mp h0 ▸ hc)
    have hrest := ih fun word hword => h word (List.mem_cons_of_mem _ hword)
    rw [joined_cons]
    split_ifs <;> simp [hescape, hrest, quote]

lemma readWords_result (text : List UInt8) (htext : 0 ∉ text) :
    ((readWords text).1 = -1 ∨ (readWords text).1 = 0 ∧ (readWords text).2 ≠ []) ∧
      ∀ word ∈ (readWords text).2, 0 ∉ word := by
  induction hn : text.length using Nat.strong_induction_on generalizing text with
  | _ n ih =>
    cases text with
    | nil =>
      rw [readWords]
      exact ⟨.inl rfl, by simp⟩
    | cons c rest =>
      have hrest : 0 ∉ rest := fun h0 => htext (List.mem_cons_of_mem _ h0)
      by_cases hc : c ≠ quote
      · rw [readWords, if_pos hc]
        exact ⟨.inl rfl, by simp⟩
      obtain rfl := not_not.mp hc
      cases hread : readQuoted rest with
      | none =>
        rw [readWords_none hread]
        exact ⟨.inl rfl, by simp⟩
      | some result =>
        obtain ⟨word, tail⟩ := result
        obtain ⟨hword, htail, hlt⟩ := readQuoted_sublist hread
        have hword0 : 0 ∉ word := fun h0 => hrest (hword 0 h0)
        cases tail with
        | nil =>
          rw [readWords_last hread]
          exact ⟨.inr ⟨rfl, by simp⟩, by simpa using hword0⟩
        | cons s tail =>
          rw [readWords_more hread]
          split_ifs with hspace
          · have htail0 : 0 ∉ tail.dropWhile isspace := fun h0 =>
              hrest (htail 0 (List.mem_cons_of_mem _ ((tail.dropWhile_sublist isspace).subset h0)))
            have hle := (tail.dropWhile_sublist isspace).length_le
            obtain ⟨hresult, hwords⟩ := ih _ (by simp only [← hn, List.length_cons] at hlt ⊢; omega) _ htail0 rfl
            exact ⟨hresult.imp_right fun h => ⟨h.1, by simp⟩, List.forall_mem_cons.mpr ⟨hword0, hwords⟩⟩
          · exact ⟨.inl rfl, by simp⟩

lemma sqDequoteToStrvec_eq {arg : List UInt8} (harg : 0 ∉ arg) :
    sqDequoteToStrvec arg = if arg = [] then (0, []) else readWords arg := by
  cases arg with
  | nil => rfl
  | cons c rest =>
    have hc : byteAt (c :: rest) 0 ≠ 0 := fun h0 => harg (List.mem_cons.mpr (.inl (show c = 0 from h0).symm))
    rw [sqDequoteToStrvec, if_neg hc, if_neg (List.cons_ne_nil _ _)]
    exact sqDequoteWords_append [] (c :: rest) harg []

lemma sqDequoteToStrvec_joined_eq {words : List (List UInt8)} (hwords : ∀ word ∈ words, 0 ∉ word) :
    sqDequoteToStrvec (joined words) = (0, words) := by
  rw [sqDequoteToStrvec_eq (zero_notMem_joined hwords)]
  cases words with
  | nil => rfl
  | cons word words =>
    rw [if_neg (by rw [joined_cons]; exact List.cons_ne_nil _ _), readWords_joined (List.cons_ne_nil _ _)]

/-- Quoted strings are decoded to themselves, in the buffer as from a list. For any other text that is decoded, the
strings are decoded again when they are quoted. -/
theorem sqDequoteToStrvec_joined (words : List (List UInt8)) (hwords : ∀ word ∈ words, 0 ∉ word) :
    sqDequoteToStrvec (joined words) = (0, words) ∧ (∀ word ∈ words, sqDequote (sqQuoteBuf [] word) = some word) ∧
      ∀ arg, 0 ∉ arg → sqDequoteToStrvec arg = (if arg = [] then (0, []) else readWords arg) ∧
        ((sqDequoteToStrvec arg).1 = -1 ∨ (sqDequoteToStrvec arg).1 = 0 ∧
          sqDequoteToStrvec (joined (sqDequoteToStrvec arg).2) = sqDequoteToStrvec arg) := by
  refine ⟨sqDequoteToStrvec_joined_eq hwords, fun word hword => ?_, fun arg harg => ⟨sqDequoteToStrvec_eq harg, ?_⟩⟩
  · have hzero := zero_notMem_joined (List.forall_mem_singleton.mpr (hwords word hword))
    have hquoted : sqQuoteBuf [] word = quote :: (word.flatMap escape ++ [quote]) := by
      rw [sqQuoteBuf, sqQuoteLoop_eq, List.nil_append, List.append_assoc]
      rfl
    rw [joined_cons, if_pos rfl] at hzero
    obtain ⟨gap, hstep⟩ := (@sqDequoteLoop_segments [] [quote] (word.flatMap escape ++ [quote]) 0 rfl
      (fun h0 => hzero (List.mem_cons_of_mem _ h0)) false).2 word [] (readQuoted_flatMap word rfl)
    have hall : sqDequoteStep (sqQuoteBuf [] word) 0 false = some ([] ++ word ++ 0 :: gap ++ [], none) := by
      rw [if_pos rfl] at hstep
      rw [hquoted, sqDequoteStep]
      exact (if_neg (not_not.mpr rfl)).trans hstep
    rw [sqDequote, hall, Option.map_some]
    exact congrArg some (cString_append (hwords word hword))
  · rw [sqDequoteToStrvec_eq harg]
    split_ifs with hnil
    · exact .inr ⟨rfl, sqDequoteToStrvec_joined_eq (by simp)⟩
    · obtain ⟨hresult, hfree⟩ := readWords_result arg harg
      exact hresult.imp_right fun h => ⟨h.1, (sqDequoteToStrvec_joined_eq hfree).trans (Prod.ext h.1.symm rfl)⟩

theorem sqDequoteToStrvec_joined_three : sqDequoteToStrvec (joined [[97, 39, 98], [], [33]]) =
    (0, [[97, 39, 98], [], [33]]) :=
  (sqDequoteToStrvec_joined [[97, 39, 98], [], [33]] (by decide)).1

end GitCore.Quote
