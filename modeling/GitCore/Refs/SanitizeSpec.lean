import Mathlib.Data.List.DropRight
import GitCore.Refs.SanitizeComponent

/-!
# Sanitized ref names

`sanitize_refname_component` joins the repaired components of a name again. Its result is a name that
`check_refname_format` accepts, except where the last component is empty or keeps a dot at its end, and where
stripping lock suffixes or slashes leaves `@` alone.
-/

namespace GitCore.Refname

abbrev joined (parts : List (List UInt8)) : List UInt8 := [slash].intercalate parts

lemma joined_cons_cons (part next : List UInt8) (parts : List (List UInt8)) :
    joined (part :: next :: parts) = part ++ slash :: joined (next :: parts) := by
  rw [joined, List.intercalate_cons_cons, List.append_assoc, List.singleton_append]

variable {parts : List (List UInt8)}

lemma joined_concat (h : parts ≠ []) (part : List UInt8) :
    joined (parts ++ [part]) = joined parts ++ slash :: part := by
  induction parts with
  | nil => exact absurd rfl h
  | cons first parts ih =>
    cases parts with
    | nil => rw [List.singleton_append, joined_cons_cons, joined, List.intercalate_singleton, joined,
        List.intercalate_singleton]
    | cons next parts =>
      rw [List.cons_append, List.cons_append, joined_cons_cons, joined_cons_cons, ← List.cons_append,
        ih (by simp), List.append_assoc, List.cons_append]

lemma exists_joined {refname : List UInt8} (h : 0 ∉ refname) :
    ∃ parts, parts ≠ [] ∧ (∀ part ∈ parts, IsPart part) ∧ refname = joined parts := by
  induction refname with
  | nil => exact ⟨[[]], by simp, by simp [IsPart], by simp⟩
  | cons ch refname ih =>
    rw [List.mem_cons, not_or] at h
    obtain ⟨parts, hne, hparts, rfl⟩ := ih h.2
    obtain ⟨part, parts, rfl⟩ := List.exists_cons_of_ne_nil hne
    by_cases hch : ch = slash
    · exact ⟨[] :: part :: parts, by simp, by simpa [IsPart] using hparts, by rw [joined_cons_cons, hch, List.nil_append]⟩
    · refine ⟨(ch :: part) :: parts, by simp, ?_, ?_⟩
      · intro p hp
        rcases List.mem_cons.mp hp with rfl | hp
        · rw [IsPart.cons_iff, Ne, disposition_eq_one]
          exact ⟨fun h' => h'.elim (fun h' => h.1 h'.symm) hch, hparts part (by simp)⟩
        · exact hparts p (by simp [hp])
      · cases parts with
        | nil => simp
        | cons next parts => rw [joined_cons_cons, joined_cons_cons, List.cons_append]

def stored (buf : List UInt8) (parts : List (List UInt8)) : List UInt8 :=
  parts.foldl (fun buf part => complete buf ++ cleaned part) buf

lemma getLast?_complete {buf : List UInt8} {c : UInt8} (h : (complete buf).getLast? = some c) : c = slash := by
  rw [complete] at h
  split at h
  · simpa [eq_comm] using h
  · rename_i hnot
    by_cases hnil : buf = []
    · simp [hnil] at h
    · have hlast : buf.getLast? = some slash := by
        by_contra hne
        exact hnot ⟨hnil, hne⟩
      rw [hlast, Option.some_inj] at h
      exact h.symm

lemma endsPart_slash (rest : List UInt8) : EndsPart (slash :: rest) := by
  intro ch hch
  rw [List.head?_cons, Option.some_inj] at hch
  rw [← hch]
  decide

lemma endsPart_nil : EndsPart [] := fun ch hch => by simp at hch

lemma getD_slash (part rest : List UInt8) : (part ++ slash :: rest).getD part.length 0 ≠ 0 := by
  rw [List.getD_eq_getElem?_getD, List.getElem?_append_right le_rfl, Nat.sub_self, List.getElem?_cons_zero,
    Option.getD_some]
  decide

lemma drop_slash (part rest : List UInt8) : (part ++ slash :: rest).drop (part.length + 1) = rest := by
  rw [List.drop_append, List.drop_of_length_le (by omega), Nat.add_sub_cancel_left]
  rfl

lemma checkComponents_some (parts : List (List UInt8)) (part buf : List UInt8) (count : Nat)
    (h : ∀ p ∈ part :: parts, IsPart p) :
    checkComponents REFNAME_ALLOW_ONELEVEL (some buf) (joined (part :: parts)) count =
      some (some (stored buf (part :: parts))) := by
  induction parts generalizing part buf count with
  | nil =>
    have hcheck := checkRefnameComponent_some (h part (by simp)) endsPart_nil fun c => @getLast?_complete buf c
    rw [List.append_nil] at hcheck
    rw [joined, List.intercalate_singleton, checkComponents, Option.map_some, hcheck]
    simp [REFNAME_ALLOW_ONELEVEL, stored]
  | cons next parts ih =>
    have hcheck := @checkRefnameComponent_some _ (slash :: joined (next :: parts)) _ (h part (by simp))
      (endsPart_slash _) fun c => @getLast?_complete buf c
    have hih := ih next (complete buf ++ cleaned part) (count + 1) fun p hp => h p (by simp [hp])
    rw [joined_cons_cons, checkComponents, Option.map_some, hcheck]
    dsimp only
    rw [if_neg (by simp), if_pos ⟨by simp, getD_slash _ _⟩, drop_slash, hih]
    rfl

lemma checkComponents_invalid {part rest : List UInt8} (hpart : IsPart part) (hrest : EndsPart rest)
    (hvalid : ¬ValidPart part) (count : Nat) :
    checkComponents REFNAME_ALLOW_ONELEVEL none (part ++ rest) count = none := by
  rw [checkComponents, Option.map_none]
  by_cases hne : part = []
  · rw [checkRefnameComponent_none hpart hrest (.inr hne), hne]
    simp
  · rw [checkRefnameComponent_invalid hpart hrest hne hvalid]

lemma checkComponents_none (parts : List (List UInt8)) (part : List UInt8) (count : Nat)
    (h : ∀ p ∈ part :: parts, IsPart p) :
    (checkComponents REFNAME_ALLOW_ONELEVEL none (joined (part :: parts)) count).isSome ↔
      (∀ p ∈ part :: parts, ValidPart p) ∧ ((part :: parts).getLastD []).getLast? ≠ some period := by
  induction parts generalizing part count with
  | nil =>
    rw [joined, List.intercalate_singleton]
    by_cases hvalid : ValidPart part
    · have hcheck := checkRefnameComponent_none (h part (by simp)) endsPart_nil (.inl hvalid)
      rw [List.append_nil] at hcheck
      rw [checkComponents, Option.map_none, hcheck]
      by_cases hlast : part.getLast? = some period <;>
        simp [hvalid, hvalid.nonempty, hlast, REFNAME_ALLOW_ONELEVEL]
    · have hcheck := checkComponents_invalid (h part (by simp)) endsPart_nil hvalid count
      rw [List.append_nil] at hcheck
      simp [hcheck, hvalid]
  | cons next parts ih =>
    have hih := ih next (count + 1) fun p hp => h p (by simp [hp])
    rw [joined_cons_cons]
    by_cases hvalid : ValidPart part
    · rw [checkComponents, Option.map_none,
        checkRefnameComponent_none (h part (by simp)) (endsPart_slash _) (.inl hvalid)]
      dsimp only
      rw [if_neg (by simp [hvalid.nonempty]), if_pos ⟨by simp, getD_slash _ _⟩, drop_slash, hih]
      simp [hvalid]
    · rw [checkComponents_invalid (h part (by simp)) (endsPart_slash _) hvalid]
      simp [hvalid]

lemma checkRefnameFormat_joined (hne : parts ≠ []) (h : ∀ p ∈ parts, IsPart p) :
    checkRefnameFormat (joined parts) REFNAME_ALLOW_ONELEVEL = true ↔
      joined parts ≠ [atSign] ∧ (∀ p ∈ parts, ValidPart p) ∧ (parts.getLastD []).getLast? ≠ some period := by
  obtain ⟨part, parts, rfl⟩ := List.exists_cons_of_ne_nil hne
  rw [checkRefnameFormat, checkOrSanitizeRefname]
  by_cases hat : joined (part :: parts) = [atSign]
  · simp [hat, repair]
  · simp only [repair, hat, if_false, Option.bind_eq_bind, Option.bind_some, ne_eq, not_false_eq_true, true_and]
    exact checkComponents_none parts part 0 h

lemma sanitizeRefnameComponent_joined (hne : parts ≠ []) (h : ∀ p ∈ parts, IsPart p) :
    sanitizeRefnameComponent (joined parts) =
      some (stored (if joined parts = [atSign] then [dash] else []) parts) := by
  obtain ⟨part, parts, rfl⟩ := List.exists_cons_of_ne_nil hne
  have hcheck := fun buf => checkComponents_some parts part buf 0 h
  rw [sanitizeRefnameComponent, checkOrSanitizeRefname]
  by_cases hat : joined (part :: parts) = [atSign]
  · rw [repair, if_pos hat, if_pos hat]
    exact congrArg Option.join (hcheck [dash])
  · rw [repair, if_neg hat, if_neg hat]
    exact congrArg Option.join (hcheck [])

def pieces (parts : List (List UInt8)) : List (List UInt8) := (parts.filter (· ≠ [])).map cleaned

lemma pieces_concat (parts : List (List UInt8)) (part : List UInt8) :
    pieces (parts ++ [part]) = pieces parts ++ if part = [] then [] else [cleaned part] := by
  by_cases hpart : part = [] <;> simp [pieces, hpart]

lemma valid_of_mem_pieces {piece : List UInt8} (h : piece ∈ pieces parts) :
    ValidPart piece := by
  simp only [pieces, List.mem_map, List.mem_filter, decide_eq_true_eq] at h
  obtain ⟨part, ⟨-, hne⟩, rfl⟩ := h
  exact validPart_cleaned hne

lemma isPart_of_mem_pieces (hparts : ∀ p ∈ parts, IsPart p) {piece : List UInt8}
    (h : piece ∈ pieces parts) : IsPart piece := by
  simp only [pieces, List.mem_map, List.mem_filter] at h
  obtain ⟨part, ⟨hmem, -⟩, rfl⟩ := h
  exact isPart_cleaned (hparts part hmem)

lemma joined_append_singleton (front : List (List UInt8)) (part : List UInt8) :
    joined (front ++ [part]) = if front = [] then part else joined front ++ slash :: part := by
  split
  · rename_i h
    rw [h, List.nil_append, joined, List.intercalate_singleton]
  · rename_i h
    exact joined_concat h part

lemma getLast?_joined (front : List (List UInt8)) {part : List UInt8} (h : part ≠ []) :
    (joined (front ++ [part])).getLast? = part.getLast? := by
  rw [joined_append_singleton]
  split
  · rfl
  · rw [List.getLast?_append_of_ne_nil _ (by simp), List.getLast?_cons, List.getLast?_eq_some_getLast h]
    rfl

lemma IsPart.slash_notMem {part : List UInt8} (h : IsPart part) : slash ∉ part := fun hmem => h slash hmem (by decide)

lemma IsPart.getLast?_ne {part : List UInt8} (h : IsPart part) : part.getLast? ≠ some slash := by
  intro hlast
  exact h.slash_notMem (List.mem_of_getLast? hlast)

lemma complete_joined {front : List (List UInt8)} {part : List UInt8} (hne : part ≠ []) (hpart : IsPart part) :
    complete (joined (front ++ [part])) = joined (front ++ [part]) ++ [slash] := by
  have hlast := getLast?_joined front hne
  rw [complete, if_pos]
  refine ⟨fun hnil => ?_, ?_⟩
  · rw [hnil, List.getLast?_nil, eq_comm, List.getLast?_eq_none_iff] at hlast
    exact hne hlast
  · rw [hlast]
    exact hpart.getLast?_ne

lemma stored_eq (h : ∀ p ∈ parts, IsPart p) :
    stored [] parts =
      joined (pieces parts) ++ if pieces parts ≠ [] ∧ parts.getLastD [] = [] then [slash] else [] := by
  induction parts using List.reverseRecOn with
  | nil => simp [stored, pieces]
  | append_singleton parts part ih =>
    have hparts : ∀ p ∈ parts, IsPart p := fun p hp => h p (by simp [hp])
    have hih := ih hparts
    rw [stored] at hih
    rw [stored, List.foldl_append, List.foldl_cons, List.foldl_nil, hih, pieces_concat, List.getLastD_concat]
    have hcleaned : cleaned [] = [] := by simp [cleaned, fixed, stripLock_of_not, LOCK_SUFFIX]
    cases hpieces : pieces parts using List.reverseRecOn with
    | nil =>
      by_cases hpart : part = [] <;> simp [hpart, complete, hcleaned]
    | append_singleton front piece =>
      have hmem : piece ∈ pieces parts := by rw [hpieces]; simp
      have hcomplete := @complete_joined front _ (valid_of_mem_pieces hmem).nonempty
        (isPart_of_mem_pieces hparts hmem)
      have hbuf : complete (joined (front ++ [piece]) ++
          if front ++ [piece] ≠ [] ∧ parts.getLastD [] = [] then [slash] else []) = joined (front ++ [piece]) ++ [slash] := by
        split
        · rw [complete, if_neg (by simp)]
        · rw [List.append_nil, hcomplete]
      rw [hbuf]
      by_cases hpart : part = []
      · rw [hpart, hcleaned, if_pos rfl, List.append_nil, List.append_nil, if_pos ⟨by simp, rfl⟩]
      · rw [if_neg hpart, if_neg (fun h => hpart h.2), List.append_nil,
          @joined_concat (front ++ [piece]) (by simp), List.append_assoc, List.singleton_append]

/-- The name does not end with a slash; it ends with a dot only where its last component is dots alone; and
it is not `@` behind slashes or before lock suffixes. -/
structure Repairable (refname : List UInt8) : Prop where
  slash : refname.getLast? ≠ some slash
  period : refname.getLast? = some period → ∀ ch ∈ refname.rtakeWhile (· ≠ Refname.slash), ch = Refname.period
  atSign : ∀ (n : Nat) (ns : List Nat),
    refname = List.replicate n Refname.slash ++ Refname.atSign :: ns.flatMap lockBlock → n = 0 ∧ ns = []

lemma rtakeWhile_joined (front : List (List UInt8)) {part : List UInt8} (h : IsPart part) :
    (joined (front ++ [part])).rtakeWhile (· ≠ slash) = part := by
  have hself : part.rtakeWhile (· ≠ slash) = part := by
    rw [List.rtakeWhile_eq_self_iff]
    intro ch hch
    simpa using fun heq : ch = slash => h.slash_notMem (heq ▸ hch)
  rw [joined_append_singleton]
  split
  · exact hself
  · rw [List.rtakeWhile, List.reverse_append, List.reverse_cons, List.append_assoc, List.singleton_append,
      List.takeWhile_append_of_pos (by
        intro ch hch
        rw [List.mem_reverse] at hch
        simpa using fun heq : ch = slash => h.slash_notMem (heq ▸ hch)),
      List.takeWhile_cons_of_neg (by simp), List.append_nil, List.reverse_reverse]

lemma joined_replicate (n : Nat) (part : List UInt8) :
    joined (List.replicate n [] ++ [part]) = List.replicate n slash ++ part := by
  induction n with
  | zero => simp
  | succ n ih =>
    have hcons : ∃ next rest, List.replicate n [] ++ [part] = next :: rest :=
      List.exists_cons_of_ne_nil (by simp)
    obtain ⟨next, rest, hrest⟩ := hcons
    rw [List.replicate_succ, List.cons_append, hrest, joined_cons_cons, ← hrest, ih]
    rfl

lemma isPart_lockBlocks (ns : List Nat) : IsPart (atSign :: ns.flatMap lockBlock) := by
  rw [IsPart.cons_iff]
  refine ⟨by decide, fun ch hch => ?_⟩
  obtain ⟨n, -, hn⟩ := List.mem_flatMap.mp hch
  rw [lockBlock, List.mem_append] at hn
  rcases hn with hn | hn
  · rw [List.eq_of_mem_replicate hn]
    decide
  · simp only [LOCK_SUFFIX, List.tail_cons, List.mem_cons, List.not_mem_nil, or_false] at hn
    rcases hn with rfl | rfl | rfl | rfl <;> decide

lemma joined_inj {parts parts' : List (List UInt8)} (hne : parts ≠ []) (hne' : parts' ≠ [])
    (h : ∀ p ∈ parts, IsPart p) (h' : ∀ p ∈ parts', IsPart p) (heq : joined parts = joined parts') : parts = parts' := by
  rw [← List.splitOn_intercalate slash (fun p hp => (h p hp).slash_notMem) hne,
    ← List.splitOn_intercalate slash (fun p hp => (h' p hp).slash_notMem) hne']
  exact congrArg (List.splitOn slash) heq

lemma joined_pieces_eq_at {front : List (List UInt8)} {part : List UInt8} (hne : part ≠ [])
    (hparts : ∀ p ∈ front ++ [part], IsPart p) :
    joined (pieces (front ++ [part])) = [atSign] ↔ ∃ (n : Nat) (ns : List Nat),
      joined (front ++ [part]) = List.replicate n slash ++ atSign :: ns.flatMap lockBlock := by
  have hat : IsPart [atSign] := by simp [IsPart]; decide
  constructor
  · intro h
    have hpieces : pieces (front ++ [part]) = [[atSign]] := by
      apply joined_inj (by simp [pieces_concat, hne]) (by simp) (fun p hp => isPart_of_mem_pieces hparts hp)
        (by simpa using hat)
      rw [h]
      rfl
    rw [pieces_concat, if_neg hne, List.append_eq_singleton_iff] at hpieces
    obtain ⟨hfront, hpart⟩ := hpieces.resolve_right (by simp)
    rw [List.cons.injEq] at hpart
    obtain ⟨ns, rfl⟩ := cleaned_eq_at.mp hpart.1
    have hreplicate : front = List.replicate front.length [] := by
      rw [List.eq_replicate_iff]
      refine ⟨rfl, fun p hp => ?_⟩
      simp only [pieces, List.map_eq_nil_iff, List.filter_eq_nil_iff, decide_eq_true_eq, not_not] at hfront
      exact hfront p hp
    exact ⟨front.length, ns, by rw [hreplicate, joined_replicate, List.length_replicate]⟩
  · rintro ⟨n, ns, h⟩
    rw [← joined_replicate] at h
    have hparts' := joined_inj (by simp) (by simp) hparts (by
      intro p hp
      rcases List.mem_append.mp hp with hp | hp
      · rw [List.eq_of_mem_replicate hp]
        simp [IsPart]
      · rw [List.mem_singleton.mp hp]
        exact isPart_lockBlocks ns) h
    have hcleaned : cleaned (atSign :: ns.flatMap lockBlock) = [atSign] := cleaned_eq_at.mpr ⟨ns, rfl⟩
    rw [hparts', pieces_concat, if_neg (by simp), hcleaned]
    simp [pieces]

lemma pieces_ne_nil (h : ∃ ch ∈ joined parts, ch ≠ slash) : pieces parts ≠ [] := by
  induction parts using List.reverseRecOn with
  | nil => simp at h
  | append_singleton front part ih =>
    rw [pieces_concat]
    by_cases hpart : part = []
    · obtain ⟨ch, hch, hne⟩ := h
      rw [joined_append_singleton, hpart] at hch
      split at hch
      · simp at hch
      · have hmem : ch ∈ joined front := by simpa [hne] using hch
        simpa [hpart] using ih ⟨ch, hmem, hne⟩
    · simp [hpart]

lemma check_stored_iff (hparts : ∀ p ∈ parts, IsPart p)
    (hname : ∃ ch ∈ joined parts, ch ≠ slash) (hat : joined parts ≠ [atSign]) :
    checkRefnameFormat (stored [] parts) REFNAME_ALLOW_ONELEVEL = true ↔ Repairable (joined parts) := by
  have hpieces := pieces_ne_nil hname
  rw [stored_eq hparts]
  cases parts using List.reverseRecOn with
  | nil => simp [pieces] at hpieces
  | append_singleton front part =>
    rw [List.getLastD_concat]
    have hpart := hparts part (by simp)
    by_cases hne : part = []
    · have hfront : front ≠ [] := by
        rintro rfl
        simp [pieces, hne] at hpieces
      have hslash : (joined (front ++ [part])).getLast? = some slash := by
        rw [joined_concat hfront, hne, List.getLast?_append]
        rfl
      rw [if_pos ⟨hpieces, hne⟩, ← joined_concat hpieces [], checkRefnameFormat_joined (by simp) (by
        intro p hp
        rcases List.mem_append.mp hp with hp | hp
        · exact isPart_of_mem_pieces hparts hp
        · rw [List.mem_singleton.mp hp]
          simp [IsPart])]
      constructor
      · rintro ⟨-, hvalid, -⟩
        exact absurd rfl (hvalid [] (by simp)).nonempty
      · exact fun h => absurd hslash h.slash
    · have hlast : (pieces (front ++ [part])).getLastD [] = cleaned part := by
        rw [pieces_concat, if_neg hne, List.getLastD_concat]
      have hname_last := getLast?_joined front hne
      rw [if_neg (fun h => hne h.2), List.append_nil, checkRefnameFormat_joined hpieces fun p hp =>
        isPart_of_mem_pieces hparts hp, hlast, Ne, joined_pieces_eq_at hne hparts, Ne, getLast?_cleaned]
      constructor
      · rintro ⟨hsingle, -, hdot⟩
        refine ⟨?_, ?_, ?_⟩
        · rw [hname_last]
          exact hpart.getLast?_ne
        · rw [hname_last, rtakeWhile_joined front hpart]
          intro hend ch hch
          by_contra hother
          exact hdot ⟨hend, ch, hch, hother⟩
        · intro n ns heq
          exact absurd ⟨n, ns, heq⟩ hsingle
      · intro h
        refine ⟨?_, fun p hp => valid_of_mem_pieces hp, ?_⟩
        · rintro ⟨n, ns, heq⟩
          obtain ⟨rfl, rfl⟩ := h.atSign n ns heq
          exact hat heq
        · rintro ⟨hend, ch, hch, hother⟩
          have hall := h.period
          rw [hname_last, rtakeWhile_joined front hpart] at hall
          exact hother (hall hend ch hch)

lemma sanitizeRefnameComponent_of_valid {refname : List UInt8} (hnul : 0 ∉ refname)
    (h : checkRefnameFormat refname REFNAME_ALLOW_ONELEVEL = true) : sanitizeRefnameComponent refname = some refname := by
  obtain ⟨parts, hne, hparts, rfl⟩ := exists_joined hnul
  obtain ⟨hat, hvalid, -⟩ := (checkRefnameFormat_joined hne hparts).mp h
  have hfilter : parts.filter (· ≠ []) = parts := by
    rw [List.filter_eq_self]
    intro p hp
    simpa using (hvalid p hp).nonempty
  have hpieces : pieces parts = parts := by
    rw [pieces, hfilter]
    exact (List.map_congr_left fun p hp => cleaned_of_valid (hvalid p hp)).trans (List.map_id parts)
  have hlast : parts.getLastD [] ≠ [] := by
    have hmem : parts.getLastD [] ∈ parts := by
      rw [List.getLastD_eq_getLast?, List.getLast?_eq_some_getLast hne]
      exact List.getLast_mem hne
    exact (hvalid _ hmem).nonempty
  rw [sanitizeRefnameComponent_joined hne hparts, if_neg hat, stored_eq hparts, hpieces, if_neg fun h => hlast h.2,
    List.append_nil]

lemma sanitizeRefnameComponent_at : sanitizeRefnameComponent [atSign] = some (joined [[dash], [atSign]]) := by
  have h := @sanitizeRefnameComponent_joined [[atSign]] (by simp) (by simp [IsPart]; decide)
  rw [joined, List.intercalate_singleton, if_pos rfl] at h
  have hcleaned : cleaned [atSign] = [atSign] := cleaned_eq_at.mpr ⟨[], rfl⟩
  rw [h, stored, List.foldl_cons, List.foldl_nil, hcleaned]
  rfl

lemma repairable_at : Repairable [atSign] where
  slash := by decide
  period h := absurd h (by decide)
  atSign n ns h := by
    cases n with
    | zero =>
      cases ns with
      | nil => exact ⟨rfl, rfl⟩
      | cons n ns => simp [lockBlock, List.replicate_succ] at h
    | succ n => simp [List.replicate_succ] at h

/-- Sanitizing gives a name that the check accepts, and leaves an accepted name as it is, for the names that can
be repaired and for no other name that has a character besides slashes. -/
theorem sanitizeRefnameComponent_iff (refname : List UInt8) (hnul : 0 ∉ refname) (hname : ∃ ch ∈ refname, ch ≠ slash) :
    (∃ out, sanitizeRefnameComponent refname = some out ∧ checkRefnameFormat out REFNAME_ALLOW_ONELEVEL = true ∧
      (checkRefnameFormat refname REFNAME_ALLOW_ONELEVEL = true → out = refname)) ↔ Repairable refname := by
  obtain ⟨parts, hne, hparts, rfl⟩ := exists_joined hnul
  by_cases hat : joined parts = [atSign]
  · have hcheck : checkRefnameFormat (joined [[dash], [atSign]]) REFNAME_ALLOW_ONELEVEL = true := by
      have hvalid : ∀ ch, ch ≠ 0 ∧ ch ≠ period ∧ fixChar 0 ch = ch → ValidPart [ch] := fun ch h =>
        ⟨by simp, ⟨fun hdot => h.2.1 hdot.1, h.2.2, trivial⟩, by simp [h.2.1],
          fun hlock => absurd hlock.length_le (by simp [LOCK_SUFFIX])⟩
      rw [checkRefnameFormat_joined (by simp) (by simp [IsPart]; decide)]
      refine ⟨by decide, ?_, by decide⟩
      simpa using ⟨hvalid dash (by decide), hvalid atSign (by decide)⟩
    have hreject : ¬checkRefnameFormat [atSign] REFNAME_ALLOW_ONELEVEL = true := by
      rw [← hat, checkRefnameFormat_joined hne hparts]
      exact fun h => h.1 hat
    rw [hat, sanitizeRefnameComponent_at]
    exact ⟨fun _ => repairable_at, fun _ => ⟨_, rfl, hcheck, fun h => absurd h hreject⟩⟩
  · have hsanitize := sanitizeRefnameComponent_joined hne hparts
    rw [if_neg hat] at hsanitize
    rw [← check_stored_iff hparts hname hat]
    constructor
    · rintro ⟨out, hout, hcheck, -⟩
      rw [hsanitize, Option.some_inj] at hout
      rwa [hout]
    · intro hcheck
      refine ⟨_, hsanitize, hcheck, fun h => ?_⟩
      rw [sanitizeRefnameComponent_of_valid hnul h, Option.some_inj] at hsanitize
      exact hsanitize.symm

theorem sanitizeRefnameComponent_iff_period :
    (∃ out, sanitizeRefnameComponent [period] = some out ∧ checkRefnameFormat out REFNAME_ALLOW_ONELEVEL = true ∧
      (checkRefnameFormat [period] REFNAME_ALLOW_ONELEVEL = true → out = [period])) ↔ Repairable [period] :=
  sanitizeRefnameComponent_iff [period] (by decide) ⟨period, by decide, by decide⟩

/-- The dot at the end of `a.` stays. -/
theorem sanitizeRefnameComponent_dot :
    ¬∀ refname : List UInt8, 0 ∉ refname → (∃ ch ∈ refname, ch ≠ slash) →
      ∃ out, sanitizeRefnameComponent refname = some out ∧ checkRefnameFormat out REFNAME_ALLOW_ONELEVEL = true ∧
        (checkRefnameFormat refname REFNAME_ALLOW_ONELEVEL = true → out = refname) := by
  intro hall
  obtain ⟨out, hout, hcheck, -⟩ := hall [0x61, period] (by decide) ⟨0x61, by decide, by decide⟩
  have hpart : ∀ p ∈ [[0x61, period]], IsPart p := by simp [IsPart]; decide
  have hsanitize := sanitizeRefnameComponent_joined (by simp) hpart
  have hcleaned : cleaned [0x61, period] = [0x61, period] :=
    cleaned_of_valid ⟨by simp, ⟨by decide, by decide, by decide, by decide, trivial⟩, by decide, by decide⟩
  rw [joined, List.intercalate_singleton, if_neg (by decide), stored, List.foldl_cons, List.foldl_nil, hcleaned, hout,
    Option.some_inj] at hsanitize
  have hjoined : out = joined [[0x61, period]] := by
    rw [hsanitize, joined, List.intercalate_singleton]
    rfl
  rw [hjoined, checkRefnameFormat_joined (by simp) hpart] at hcheck
  exact hcheck.2.2 rfl

end GitCore.Refname
