import GitCore.Path.Normalize

/-!
# What normalizing a path leaves

The one pass over a path resolves its components from left to right. What it has written is never longer than what it
has read, so the pass may overwrite its own input.
-/

namespace GitCore.Path

def BytesAt (mem : List UInt8) (i : Nat) (xs : List UInt8) : Prop :=
  ∀ k x, xs[k]? = some x → mem[i + k]? = some x

variable {mem out rest c xs ys path : List UInt8} {i j s d : Nat} {x y : UInt8}

lemma BytesAt.head (h : BytesAt mem i (x :: xs)) : mem[i]? = some x := h 0 x rfl

lemma BytesAt.tail (h : BytesAt mem i (x :: xs)) : BytesAt mem (i + 1) xs := fun k y hk => by
  have hnext := h (k + 1) y hk
  rwa [Nat.add_right_comm i 1 k]

lemma BytesAt.left (h : BytesAt mem i (xs ++ ys)) : BytesAt mem i xs := fun k y hk => by
  have hlt := (List.getElem?_eq_some_iff.mp hk).1
  exact h k y (by rw [List.getElem?_append_left hlt, hk])

lemma BytesAt.set (h : BytesAt mem i xs) (y : UInt8) (hapart : ∀ k < xs.length, j ≠ i + k) :
    BytesAt (mem.set j y) i xs := fun k z hk => by
  rw [List.getElem?_set_ne (hapart k (List.getElem?_eq_some_iff.mp hk).1)]
  exact h k z hk

lemma BytesAt.push (h : BytesAt mem i xs) (y : UInt8) (hroom : i + xs.length < mem.length) :
    BytesAt (mem.set (i + xs.length) y) i (xs ++ [y]) := fun k z hk => by
  obtain hlt | hge := Nat.lt_or_ge k xs.length
  · rw [List.getElem?_append_left hlt] at hk
    rw [List.getElem?_set_ne (by omega)]
    exact h k z hk
  · have hlast : k = xs.length := by
      have hlt := (List.getElem?_eq_some_iff.mp hk).1
      rw [List.length_append, List.length_singleton] at hlt
      omega
    subst hlast
    rw [List.getElem?_concat_length] at hk
    rw [List.getElem?_set_self hroom, hk]

def Apart (d s len : Nat) : Prop := ∀ i k, i < k → k ≤ len → d + i ≠ s + k

structure Copied (path : List UInt8) (s d : Nat) (out rest : List UInt8) (st : NormalizeState) : Prop where
  apart : Apart d s path.length
  src_at : BytesAt st.mem st.src (rest ++ [0])
  dst_at : BytesAt st.mem d out
  src_eq : st.src + rest.length = s + path.length
  dst_eq : st.dst = d + out.length
  length_le : out.length + rest.length ≤ path.length
  room : d + path.length < st.mem.length

variable {st : NormalizeState}

lemma Copied.next (h : Copied path s d out (x :: rest) st) :
    Copied path s d out rest { st with src := st.src + 1 } where
  apart := h.apart
  src_at := h.src_at.tail
  dst_at := h.dst_at
  src_eq := by
    have := h.src_eq
    rw [List.length_cons] at this
    dsimp only
    omega
  dst_eq := h.dst_eq
  length_le := by
    have := h.length_le
    rw [List.length_cons] at this
    omega
  room := h.room

lemma Copied.write (h : Copied path s d out (x :: rest) st) (y : UInt8) :
    ∃ st', ({ st with src := st.src + 1 } : NormalizeState).write y = some st' ∧
      Copied path s d (out ++ [y]) rest st' ∧ st'.prefixLen = st.prefixLen := by
  have hlength := h.length_le
  have hsrc := h.src_eq
  have hroom := h.room
  rw [List.length_cons] at hlength hsrc
  have hdst := h.dst_eq
  refine ⟨_, if_pos (show st.dst < st.mem.length by omega), ?_, rfl⟩
  exact
    { apart := h.apart
      src_at := h.next.src_at.set y fun k hk => by
        rw [List.length_append, List.length_singleton] at hk
        have hne := h.apart out.length (path.length - rest.length + k) (by omega) (by omega)
        dsimp only
        omega
      dst_at := by
        dsimp only
        rw [hdst]
        exact h.dst_at.push y (by omega)
      src_eq := h.next.src_eq
      dst_eq := by
        rw [List.length_append, List.length_singleton]
        exact congrArg (· + 1) hdst
      length_le := by
        rw [List.length_append, List.length_singleton]
        omega
      room := by
        rw [List.length_set]
        exact hroom }

lemma Copied.skip (h : Copied path s d out rest st) :
    ∃ src, skipSlashes st.mem st.src = some src ∧
      Copied path s d out (rest.dropWhile isDirSep) { st with src := src } := by
  induction rest generalizing st with
  | nil =>
    refine ⟨st.src, ?_, h⟩
    have hzero : st.mem[st.src]? = some 0 := h.src_at.head
    rw [skipSlashes]
    split
    · rename_i hnone
      rw [hnone] at hzero
      cases hzero
    · rename_i c hc
      rw [hc] at hzero
      rw [Option.some.inj hzero]
      rfl
  | cons x rest ih =>
    have hx : st.mem[st.src]? = some x := h.src_at.head
    rw [skipSlashes]
    split
    · rename_i hnone
      rw [hnone] at hx
      cases hx
    · rename_i c hc
      rw [hc] at hx
      obtain rfl := Option.some.inj hx
      by_cases hsep : isDirSep c
      · rw [if_pos hsep, List.dropWhile_cons_of_pos hsep]
        exact ih h.next
      · rw [if_neg hsep, List.dropWhile_cons_of_neg hsep]
        exact ⟨st.src, rfl, h⟩

lemma Copied.component (h : Copied path s d out (c ++ rest) st) (hc : ∀ x ∈ c, x ≠ 0 ∧ ¬isDirSep x)
    (hy : (rest ++ [0]).head? = some y) (hstop : y = 0 ∨ isDirSep y) :
    ∃ st', copyComponent st = some ({ st' with src := st'.src + 1 }, y) ∧ Copied path s d (out ++ c) rest st' := by
  induction c generalizing out st with
  | nil =>
    refine ⟨st, ?_, by rwa [List.append_nil]⟩
    have hget : st.mem[st.src]? = some y := by
      obtain ⟨tail, htail⟩ : ∃ tail, rest ++ [0] = y :: tail := by
        cases hrest : rest ++ [0] with
        | nil => rw [hrest] at hy; cases hy
        | cons z tail =>
          rw [hrest] at hy
          exact ⟨tail, by rw [Option.some.inj hy]⟩
      have hat := h.src_at
      rw [List.nil_append, htail] at hat
      exact hat.head
    rw [copyComponent]
    split
    · rename_i hnone
      rw [hnone] at hget
      cases hget
    · rename_i z hz
      rw [hz] at hget
      obtain rfl := Option.some.inj hget
      rw [if_neg fun hgo => hstop.elim hgo.1 hgo.2]
  | cons x c ih =>
    obtain ⟨hx, hc⟩ := List.forall_mem_cons.mp hc
    have hget : st.mem[st.src]? = some x := h.src_at.head
    obtain ⟨st₁, hwrite, hcopied, -⟩ := h.write x
    obtain ⟨st', hst', hlast⟩ := ih hcopied hc
    refine ⟨st', ?_, by rwa [List.append_assoc] at hlast⟩
    rw [copyComponent]
    split
    · rename_i hnone
      rw [hnone] at hget
      cases hget
    · rename_i z hz
      rw [hz] at hget
      obtain rfl := Option.some.inj hget
      rw [if_pos hx]
      split
      · rename_i hnone
        rw [hwrite] at hnone
        cases hnone
      · rename_i st₂ hst₂
        rw [hwrite] at hst₂
        rw [← Option.some.inj hst₂]
        exact hst'

lemma Copied.round_component (h : Copied path s d out (c ++ slash :: rest) st) (hc : ∀ x ∈ c, x ≠ 0 ∧ ¬isDirSep x) :
    ∃ st', copyRound st = .inl st' ∧ Copied path s d (out ++ c ++ [slash]) (rest.dropWhile isDirSep) st' := by
  obtain ⟨st₁, hcopy, h₁⟩ := h.component hc (y := slash) rfl (.inr rfl)
  obtain ⟨st₂, hwrite, h₂, -⟩ := h₁.write slash
  obtain ⟨src, hskip, h₃⟩ := h₂.skip
  refine ⟨_, ?_, h₃⟩
  rw [copyRound, hcopy]
  dsimp only
  rw [if_pos (show isDirSep slash by rfl), hwrite]
  dsimp only
  rw [hskip]

lemma Copied.round_last (h : Copied path s d out c st) (hc : ∀ x ∈ c, x ≠ 0 ∧ ¬isDirSep x) :
    ∃ mem' prefixLen, copyRound st = .inr (some (.done mem' prefixLen)) ∧ BytesAt mem' d (out ++ c ++ [0]) ∧
      (out ++ c).length ≤ path.length := by
  have h' : Copied path s d out (c ++ []) st := by rwa [List.append_nil]
  obtain ⟨st₁, hcopy, h₁⟩ := h'.component hc (y := 0) rfl (.inl rfl)
  have hdst := h₁.dst_eq
  have hlength := h₁.length_le
  have hroom := h₁.room
  have hwrite : ({ st₁ with src := st₁.src + 1 } : NormalizeState).write 0 = some _ :=
    if_pos (show st₁.dst < st₁.mem.length by rw [hdst]; omega)
  refine ⟨st₁.mem.set st₁.dst 0, st₁.prefixLen, ?_, ?_, hlength⟩
  · rw [copyRound, hcopy]
    dsimp only
    rw [if_neg (by decide), hwrite]
    rfl
  · rw [hdst]
    exact h₁.dst_at.push 0 (by omega)

lemma dotKind_dot {tail : List UInt8} (h : BytesAt mem i (period :: y :: tail)) (hstop : y = 0 ∨ isDirSep y) :
    dotKind mem i = some (if y = 0 then .dotEnd else .dotSlash) := by
  have h₀ := h.head
  have h₁ := h.tail.head
  by_cases hy : y = 0
  · simp [dotKind, h₀, h₁, hy]
  · have hsep := hstop.resolve_left hy
    simp [dotKind, h₀, h₁, hy, hsep]

lemma dotKind_dots {tail : List UInt8} (h : BytesAt mem i (period :: period :: y :: tail))
    (hstop : y = 0 ∨ isDirSep y) : dotKind mem i = some (if y = 0 then .dotDotEnd else .dotDotSlash) := by
  have h₀ := h.head
  have h₁ := h.tail.head
  have h₂ : mem[i + 2]? = some y := h.tail.tail.head
  have hne : period ≠ 0 := by decide
  have hsep : isDirSep period = false := by decide
  by_cases hy : y = 0
  · simp [dotKind, h₀, h₁, h₂, hy, hne, hsep]
  · have hsep' := hstop.resolve_left hy
    simp [dotKind, h₀, h₁, h₂, hy, hne, hsep, hsep']

lemma dotKind_other {tail : List UInt8} (h : BytesAt mem i (c ++ y :: tail)) (hc : ∀ x ∈ c, x ≠ 0 ∧ ¬isDirSep x)
    (hstop : y = 0 ∨ isDirSep y) (hdot : c ≠ [period]) (hdots : c ≠ [period, period]) :
    dotKind mem i = some .other := by
  have hy : y ≠ period := by
    rintro rfl
    exact absurd hstop (by decide)
  cases c with
  | nil =>
    have h₀ := h.head
    simp [dotKind, h₀, hy]
  | cons x₀ c =>
    have h₀ := h.head
    by_cases hx₀ : x₀ = period
    · subst hx₀
      cases c with
      | nil => exact absurd rfl hdot
      | cons x₁ c =>
        have h₁ := h.tail.head
        have hx₁ := hc x₁ (by simp)
        by_cases hdot₁ : x₁ = period
        · subst hdot₁
          cases c with
          | nil => exact absurd rfl hdots
          | cons x₂ c =>
            have h₂ : mem[i + 2]? = some x₂ := h.tail.tail.head
            have hx₂ := hc x₂ (by simp)
            simp [dotKind, h₀, h₁, h₂, hx₁, hx₂]
        · simp [dotKind, h₀, h₁, hx₁, hdot₁]
    · simp [dotKind, h₀, hx₀]

lemma stripLast_component {dst0 : Nat} (h : BytesAt mem d (out ++ c)) (hc : slash ∉ c) (hle : dst0 ≤ d + out.length)
    (hstop : d + out.length = dst0 ∨ out.getLast? = some slash) :
    stripLast mem dst0 (d + (out ++ c).length) = d + out.length := by
  induction c using List.reverseRecOn with
  | nil =>
    rw [List.append_nil]
    cases hn : d + out.length with
    | zero => rfl
    | succ n =>
      rw [stripLast, if_neg]
      rintro ⟨hlt, hne⟩
      obtain heq | hlast := hstop
      · omega
      · have hpos : 0 < out.length := by
          rw [List.length_pos_iff]
          rintro rfl
          cases hlast
        rw [List.getLast?_eq_getElem?] at hlast
        have hget := h (out.length - 1) slash (by rw [List.append_nil]; exact hlast)
        exact hne (by rw [← hget]; congr 1; omega)
  | append_singleton c x ih =>
    have hx : x ≠ slash := fun hx => hc (by rw [hx]; simp)
    have hget : mem[d + (out ++ c).length]? = some x := by
      refine h _ x ?_
      rw [← List.append_assoc, List.getElem?_concat_length]
    have hlast : d + (out ++ (c ++ [x])).length = d + (out ++ c).length + 1 := by
      rw [← List.append_assoc, @List.length_append _ _ [x]]
      rfl
    rw [hlast, stripLast, if_pos]
    · rw [← List.append_assoc] at h
      exact ih h.left fun hmem => hc (List.mem_append_left _ hmem)
    · refine ⟨?_, ?_⟩
      · rw [List.length_append]
        omega
      · rw [hget]
        exact fun heq => hx (Option.some.inj heq)

lemma Copied.upOne_nil {r : List UInt8} (h : Copied path s d r rest st) :
    upOne (d + r.length) st = .inr (some (.failed st.mem st.prefixLen)) := by
  rw [upOne, if_pos]
  rw [h.dst_eq]
  exact Nat.sub_le _ _

lemma Copied.upOne_concat {r : List UInt8} {names : List (List UInt8)} {c : List UInt8}
    (h : Copied path s d (r ++ closed slash (names ++ [c])) rest st) (hc : IsName slash period c) :
    ∃ st', upOne (d + r.length) st = .inl st' ∧ st'.src = st.src ∧
      Copied path s d (r ++ closed slash names) rest st' := by
  have hout : r ++ closed slash (names ++ [c]) = r ++ closed slash names ++ c ++ [slash] := by
    rw [closed_append, closed_singleton]
    simp
  have hat := h.dst_at
  have hdst := h.dst_eq
  rw [hout] at hat hdst
  have hlast : st.dst - 1 = d + (r ++ closed slash names ++ c).length := by
    rw [hdst, @List.length_append _ _ [slash], List.length_singleton]
    omega
  have hstrip : stripLast st.mem (d + r.length) (st.dst - 1) = d + (r ++ closed slash names).length := by
    rw [hlast]
    refine stripLast_component hat.left hc.sep_notMem (by rw [List.length_append]; omega) ?_
    obtain rfl | ⟨names', e, rfl⟩ := List.eq_nil_or_concat' names
    · exact .inl (by simp [closed])
    · refine .inr ?_
      rw [closed_append, closed_singleton, ← List.append_assoc, ← List.append_assoc, List.getLast?_append]
      rfl
  have hne : ¬st.dst - 1 ≤ d + r.length := by
    have := List.length_pos_iff.mpr hc.ne_nil
    rw [hlast, List.length_append, List.length_append]
    omega
  have hup := show upOne (d + r.length) st = .inl _ by rw [upOne, if_neg hne]
  refine ⟨_, hup, rfl, ?_⟩
  have hlength := h.length_le
  rw [hout] at hlength
  exact
    { apart := h.apart
      src_at := h.src_at
      dst_at := hat.left.left
      src_eq := h.src_eq
      dst_eq := hstrip
      length_le := by
        simp only [List.length_append] at hlength ⊢
        omega
      room := h.room }

def root (path : List UInt8) : List UInt8 := if path.head?.any isDirSep then [slash] else []

/-- The names, with a slash behind the last one unless the path itself ends in a name. -/
def written (path : List UInt8) (names : List (List UInt8)) : List UInt8 :=
  root path ++ if EndsInName slash period path then joined slash names else closed slash names

def resolved (path : List UInt8) : Option (List (List UInt8)) := resolveFrom period [] (components slash period path)

def normalForm (path : List UInt8) : Option (List UInt8) := (resolved path).map (written path)

structure RoundInv (path : List UInt8) (s d : Nat) (names : List (List UInt8)) (rest : List UInt8)
    (st : NormalizeState) : Prop where
  copied : Copied path s d (root path ++ closed slash names) rest st
  isName : ∀ c ∈ names, IsName slash period c
  noNul : 0 ∉ rest
  noSlash : rest.head? ≠ some slash
  resolved_eq : resolved path = resolveFrom period names (components slash period rest)
  endsInName_iff : EndsInName slash period path ↔ EndsInName slash period rest

def RunPost (path : List UInt8) (d : Nat) : Option NormalizeResult → Prop
  | none => False
  | some (.failed _ _) => normalForm path = none
  | some (.done mem _) => ∃ out, normalForm path = some out ∧ BytesAt mem d (out ++ [0]) ∧ out.length ≤ path.length

variable {names : List (List UInt8)} {dst0 : Nat}

lemma isDirSep_iff {x : UInt8} : isDirSep x ↔ x = slash := by simp [isDirSep]

lemma forall_component (hnul : 0 ∉ c) (hslash : slash ∉ c) : ∀ x ∈ c, x ≠ 0 ∧ ¬isDirSep x := fun x hx =>
  ⟨fun h => hnul (h ▸ hx), fun h => hslash (isDirSep_iff.mp h ▸ hx)⟩

lemma head?_dropWhile_slash (rest : List UInt8) : (rest.dropWhile isDirSep).head? ≠ some slash := fun h => by
  have hstop := List.head?_dropWhile_not isDirSep rest
  rw [h] at hstop
  exact absurd hstop (by decide)

def RoundPost (path : List UInt8) (s d : Nat) : NormalizeState ⊕ Option NormalizeResult → Prop
  | .inl st => ∃ names rest, RoundInv path s d names rest st
  | .inr r => RunPost path d r

lemma roundPost_upOne (hcopied : Copied path s d (root path ++ closed slash names) rest st)
    (hnames : ∀ c ∈ names, IsName slash period c) (hnul : 0 ∉ rest) (hslash : rest.head? ≠ some slash)
    (hresolved : resolved path = resolveFrom period names ([period, period] :: components slash period rest))
    (hends : EndsInName slash period path ↔ EndsInName slash period rest) :
    RoundPost path s d (upOne (d + (root path).length) st) := by
  rw [resolveFrom, if_pos rfl] at hresolved
  obtain rfl | ⟨names', c, rfl⟩ := List.eq_nil_or_concat' names
  · rw [closed, List.flatMap_nil, List.append_nil] at hcopied
    rw [hcopied.upOne_nil]
    show normalForm path = none
    rw [normalForm, hresolved, if_pos rfl]
    rfl
  · obtain ⟨st', hup, -, h'⟩ := hcopied.upOne_concat (hnames c (by simp))
    rw [hup]
    rw [if_neg (by simp), List.dropLast_concat] at hresolved
    exact ⟨names', rest,
      { copied := h'
        isName := fun e he => hnames e (List.mem_append_left _ he)
        noNul := hnul
        noSlash := hslash
        resolved_eq := hresolved
        endsInName_iff := hends }⟩

lemma RoundInv.copyRound_component (h : RoundInv path s d names (c ++ slash :: rest) st) (hc : IsName slash period c) :
    RoundPost path s d (copyRound st) := by
  have hnul := h.noNul
  rw [List.mem_append, List.mem_cons, not_or, not_or] at hnul
  obtain ⟨st', hround, hcopied⟩ := h.copied.round_component (forall_component hnul.1 hc.sep_notMem)
  have hclosed : closed slash (names ++ [c]) = closed slash names ++ (c ++ [slash]) := by
    rw [closed_append, closed_singleton]
  rw [List.append_assoc, List.append_assoc, ← hclosed] at hcopied
  have hresolved := h.resolved_eq
  rw [components_first hc.sep_notMem hc.ne_nil hc.ne_dot, resolveFrom, if_neg hc.ne_dots,
    ← components_dropWhile] at hresolved
  rw [hround]
  exact ⟨names ++ [c], rest.dropWhile isDirSep,
    { copied := hcopied
      isName := fun e he => by
        obtain he | he := List.mem_append.mp he
        · exact h.isName e he
        · rw [List.mem_singleton.mp he]
          exact hc
      noNul := fun hmem => hnul.2.2 ((List.dropWhile_sublist _).mem hmem)
      noSlash := head?_dropWhile_slash rest
      resolved_eq := hresolved
      endsInName_iff := by
        rw [h.endsInName_iff, endsInName_append]
        exact (endsInName_dropWhile rest).symm }⟩

lemma runPost_closed (hcopied : Copied path s d (root path ++ closed slash names) [] st)
    (hresolved : resolved path = some names) (hends : ¬EndsInName slash period path) :
    RoundPost path s d (copyRound st) := by
  obtain ⟨mem', prefixLen, hround, hat, hlength⟩ := hcopied.round_last (List.forall_mem_nil _)
  rw [hround]
  refine ⟨_, ?_, hat, hlength⟩
  rw [normalForm, hresolved, Option.map_some, written, if_neg hends, List.append_nil]

lemma RoundInv.copyRound_last (h : RoundInv path s d names c st) (hc : IsName slash period c) :
    RoundPost path s d (copyRound st) := by
  obtain ⟨mem', prefixLen, hround, hat, hlength⟩ := h.copied.round_last (forall_component h.noNul hc.sep_notMem)
  have hends := h.endsInName_iff.mpr ((endsInName_single hc.sep_notMem).mpr ⟨hc.ne_nil, hc.ne_dot, hc.ne_dots⟩)
  have hresolved := h.resolved_eq
  rw [components_single hc.sep_notMem hc.ne_nil hc.ne_dot, resolveFrom, if_neg hc.ne_dots, resolveFrom] at hresolved
  rw [hround]
  refine ⟨_, ?_, hat, hlength⟩
  rw [normalForm, hresolved, Option.map_some, written, if_pos hends, joined_append_singleton, List.append_assoc]

lemma RoundInv.round_component (h : RoundInv path s d names (c ++ slash :: rest) st) (hc : slash ∉ c) :
    RoundPost path s d (round (d + (root path).length) st) := by
  have hnul := h.noNul
  rw [List.mem_append, List.mem_cons, not_or, not_or] at hnul
  have hat := h.copied.src_at
  rw [List.append_assoc, List.cons_append] at hat
  have hne : c ≠ [] := by
    rintro rfl
    exact h.noSlash rfl
  by_cases hdot : c = [period]
  · subst hdot
    have hkind := dotKind_dot hat (.inr (by decide))
    rw [if_neg (by decide)] at hkind
    obtain ⟨src, hskip, hcopied⟩ := (Copied.next (Copied.next h.copied)).skip
    have hresolved := h.resolved_eq
    rw [List.singleton_append, components_dot (by decide), ← components_dropWhile] at hresolved
    rw [round, hkind]
    dsimp only at hskip ⊢
    rw [hskip]
    exact ⟨names, rest.dropWhile isDirSep,
      { copied := hcopied
        isName := h.isName
        noNul := fun hmem => hnul.2.2 ((List.dropWhile_sublist _).mem hmem)
        noSlash := head?_dropWhile_slash rest
        resolved_eq := hresolved
        endsInName_iff := by
          rw [h.endsInName_iff, endsInName_append]
          exact (endsInName_dropWhile rest).symm }⟩
  · by_cases hdots : c = [period, period]
    · subst hdots
      have hkind := dotKind_dots hat (.inr (by decide))
      rw [if_neg (by decide)] at hkind
      obtain ⟨src, hskip, hcopied⟩ := (Copied.next (Copied.next (Copied.next h.copied))).skip
      have hresolved := h.resolved_eq
      rw [components_first (by decide) (by decide) (by decide), ← components_dropWhile] at hresolved
      rw [round, hkind]
      dsimp only at hskip ⊢
      rw [hskip]
      refine roundPost_upOne hcopied h.isName (fun hmem => hnul.2.2 ((List.dropWhile_sublist _).mem hmem))
        (head?_dropWhile_slash rest) hresolved ?_
      rw [h.endsInName_iff, endsInName_append]
      exact (endsInName_dropWhile rest).symm
    · rw [round, dotKind_other hat (forall_component hnul.1 hc) (.inr (by decide)) hdot hdots]
      exact h.copyRound_component ⟨hne, hc, hdot, hdots⟩

lemma RoundInv.round_last (h : RoundInv path s d names c st) (hc : slash ∉ c) :
    RoundPost path s d (round (d + (root path).length) st) := by
  have hat := h.copied.src_at
  have hends := h.endsInName_iff
  rw [endsInName_single hc] at hends
  by_cases hdot : c = [period]
  · subst hdot
    have hkind := dotKind_dot hat (.inl rfl)
    rw [if_pos rfl] at hkind
    have hresolved := h.resolved_eq
    rw [components_dot_end (by decide)] at hresolved
    rw [round, hkind]
    exact runPost_closed (Copied.next h.copied) hresolved fun hend => (hends.mp hend).2.1 rfl
  · by_cases hdots : c = [period, period]
    · subst hdots
      have hkind := dotKind_dots hat (.inl rfl)
      rw [if_pos rfl] at hkind
      have hresolved := h.resolved_eq
      rw [components_single (by decide) (by decide) (by decide), ← components_nil] at hresolved
      rw [round, hkind]
      refine roundPost_upOne (Copied.next (Copied.next h.copied)) h.isName List.not_mem_nil (by decide) hresolved ?_
      rw [h.endsInName_iff]
      exact iff_of_false (by decide) (by decide)
    · rw [round, dotKind_other hat (forall_component h.noNul hc) (.inl rfl) hdot hdots]
      by_cases hne : c = []
      · subst hne
        have hresolved := h.resolved_eq
        rw [components_nil] at hresolved
        exact runPost_closed h.copied hresolved fun hend => (hends.mp hend).1 rfl
      · exact h.copyRound_last ⟨hne, hc, hdot, hdots⟩

lemma RoundInv.round (h : RoundInv path s d names rest st) :
    RoundPost path s d (round (d + (root path).length) st) := by
  obtain hc | ⟨c, rest', hc, rfl⟩ := exists_first_segment slash rest
  · exact h.round_last hc
  · exact h.round_component hc

lemma RoundInv.normalizeLoop (h : RoundInv path s d names rest st) :
    RunPost path d (normalizeLoop (d + (root path).length) st) := by
  refine loop_inv _ _ _ (fun st => ∃ names rest, RoundInv path s d names rest st) (RunPost path d) ?_ ?_
    ⟨names, rest, h⟩
  · rintro st₁ st₂ ⟨names₁, rest₁, h₁⟩ hstep
    have hpost := h₁.round
    rwa [hstep] at hpost
  · rintro st₁ r ⟨names₁, rest₁, h₁⟩ hstep
    have hpost := h₁.round
    rwa [hstep] at hpost

/-- A path in memory, and room for as much at its destination: the same place, or one that does not overlap. -/
structure Placed (mem : List UInt8) (dst src : Nat) (path : List UInt8) : Prop where
  src_at : BytesAt mem src (path ++ [0])
  apart : dst = src ∨ dst + path.length < src ∨ src + path.length < dst
  room : dst + path.length < mem.length

variable {src dst : Nat}

lemma Placed.copied (h : Placed mem dst src path) (prefixLen : Option Nat) :
    Copied path src dst [] path { mem := mem, src := src, dst := dst, prefixLen := prefixLen } where
  apart := fun i k hlt hle => by
    have := h.apart
    omega
  src_at := h.src_at
  dst_at := fun k x hk => by cases hk
  src_eq := rfl
  dst_eq := rfl
  length_le := (Nat.zero_add _).le
  room := h.room

lemma runPost_normalizePathCopyLen (hnul : 0 ∉ path) (h : Placed mem dst src path) (prefixLen : Option Nat) :
    RunPost path dst (normalizePathCopyLen mem dst src prefixLen) := by
  have hcopied := h.copied prefixLen
  by_cases hroot : path.head?.any isDirSep
  · obtain ⟨rest, rfl⟩ : ∃ rest, path = slash :: rest := by
      cases path with
      | nil => cases hroot
      | cons x rest => exact ⟨rest, by rw [isDirSep_iff.mp hroot]⟩
    have hget : mem[src]? = some slash := h.src_at.head
    obtain ⟨st, hwrite, h₁, -⟩ := hcopied.write slash
    obtain ⟨src', hskip, h₂⟩ := h₁.skip
    have hrun : normalizePathCopyLen mem dst src prefixLen = normalizeLoop st.dst { st with src := src' } := by
      simp only [normalizePathCopyLen, Option.bind_eq_bind, hget, Option.bind_some]
      rw [if_pos (by decide), hwrite, Option.bind_some, hskip, Option.bind_some]
    have hdst : st.dst = dst + (root (slash :: rest)).length := h₂.dst_eq
    rw [List.mem_cons, not_or] at hnul
    have hinv : RoundInv (slash :: rest) src dst [] (rest.dropWhile isDirSep) { st with src := src' } :=
      { copied := h₂
        isName := List.forall_mem_nil _
        noNul := fun hmem => hnul.2 ((List.dropWhile_sublist _).mem hmem)
        noSlash := head?_dropWhile_slash rest
        resolved_eq := by
          rw [resolved, components_sep, ← components_dropWhile]
          rfl
        endsInName_iff := by
          rw [endsInName_sep, ← endsInName_dropWhile]
          rfl }
    have hloop := hinv.normalizeLoop
    rw [← hdst] at hloop
    rw [hrun]
    exact hloop
  · have hhead : path.head? ≠ some slash := fun hhead => hroot (by rw [hhead]; rfl)
    obtain ⟨x, tail, htail⟩ := List.exists_cons_of_ne_nil (List.concat_ne_nil (0 : UInt8) path)
    have hget : mem[src]? = some x := by
      have hat := h.src_at
      rw [htail] at hat
      exact hat.head
    have hx : ¬isDirSep x := by
      cases path with
      | nil =>
        rw [← (List.cons.inj htail).1]
        decide
      | cons y rest =>
        rw [← (List.cons.inj htail).1]
        exact fun hsep => hroot hsep
    have hskip : skipSlashes mem src = some src := by
      rw [skipSlashes]
      split
      · rename_i hnone
        rw [hget] at hnone
        cases hnone
      · rename_i y hy
        rw [hget] at hy
        rw [← Option.some.inj hy, if_neg hx]
    have hrun : normalizePathCopyLen mem dst src prefixLen =
        normalizeLoop dst { mem := mem, src := src, dst := dst, prefixLen := prefixLen } := by
      simp only [normalizePathCopyLen, Option.bind_eq_bind, hget, Option.bind_some]
      rw [if_neg hx, hskip, Option.bind_some]
    have hnil : root path = [] := if_neg hroot
    have hinv : RoundInv path src dst [] path { mem := mem, src := src, dst := dst, prefixLen := prefixLen } :=
      { copied := by
          rw [hnil]
          exact hcopied
        isName := List.forall_mem_nil _
        noNul := hnul
        noSlash := hhead
        resolved_eq := rfl
        endsInName_iff := Iff.rfl }
    have hloop := hinv.normalizeLoop
    rw [hnil] at hloop
    rw [hrun]
    exact hloop

lemma isName_of_resolved (h : resolved path = some names) : ∀ c ∈ names, IsName slash period c :=
  isName_of_resolveFrom (List.forall_mem_nil _) components_spec h

lemma notMem_zero_of_resolved (hnul : 0 ∉ path) (h : resolved path = some names) : ∀ c ∈ names, 0 ∉ c :=
  fun c hc hzero => by
    obtain hmem | hmem := mem_of_resolveFrom h hc
    · cases hmem
    · exact hnul (mem_of_mem_splitOn (List.mem_filter.mp hmem).1 hzero)

lemma mem_closed {a : UInt8} (h : a ∈ closed slash names) : a = slash ∨ ∃ c ∈ names, a ∈ c := by
  obtain ⟨c, hc, ha⟩ := List.mem_flatMap.mp h
  obtain hmem | hmem := List.mem_append.mp ha
  · exact .inr ⟨c, hc, hmem⟩
  · exact .inl (List.mem_singleton.mp hmem)

lemma written_isPrefix (path : List UInt8) (names : List (List UInt8)) :
    written path names <+: root path ++ closed slash names := by
  rw [written]
  split_ifs
  · exact (List.prefix_append_right_inj _).mpr (joined_isPrefix names)
  · exact List.prefix_rfl

lemma mem_root {a : UInt8} (h : a ∈ root path) : a = slash := by
  rw [root] at h
  split_ifs at h
  · exact List.mem_singleton.mp h
  · cases h

lemma notMem_zero_written (hnul : ∀ c ∈ names, 0 ∉ c) : 0 ∉ written path names := fun hmem => by
  obtain hmem | hmem := List.mem_append.mp ((written_isPrefix path names).subset hmem)
  · exact absurd (mem_root hmem) (by decide)
  · obtain hslash | ⟨c, hc, hzero⟩ := mem_closed hmem
    · exact absurd hslash (by decide)
    · exact hnul c hc hzero

lemma components_root (path rest : List UInt8) :
    components slash period (root path ++ rest) = components slash period rest := by
  rw [root]
  split_ifs
  · exact components_sep rest
  · rfl

lemma endsInName_root (path rest : List UInt8) :
    EndsInName slash period (root path ++ rest) ↔ EndsInName slash period rest := by
  rw [root]
  split_ifs
  · exact endsInName_sep rest
  · rfl

lemma components_written (h : ∀ c ∈ names, IsName slash period c) (path : List UInt8) :
    components slash period (written path names) = names := by
  rw [written, components_root]
  split_ifs
  · exact components_joined h
  · have hclosed := components_closed h []
    rwa [List.append_nil, components_nil, List.append_nil] at hclosed

lemma resolved_written (h : ∀ c ∈ names, IsName slash period c) (path : List UInt8) :
    resolved (written path names) = some names := by
  rw [resolved, components_written h, resolveFrom_names _ fun c hc => (h c hc).ne_dots, List.nil_append]

lemma root_written (h : ∀ c ∈ names, IsName slash period c) (path : List UInt8) :
    root (written path names) = root path := by
  by_cases hroot : path.head?.any isDirSep
  · have hslash : root path = [slash] := if_pos hroot
    rw [written, hslash]
    rfl
  · have hnil : root path = [] := if_neg hroot
    have hpre := written_isPrefix path names
    rw [hnil, List.nil_append] at hpre
    rw [hnil]
    refine if_neg fun hsep => ?_
    cases hw : written path names with
    | nil =>
      rw [hw] at hsep
      cases hsep
    | cons x w =>
      rw [hw] at hsep hpre
      have hx : x = slash := isDirSep_iff.mp hsep
      cases names with
      | nil => exact absurd (List.prefix_nil.mp hpre) (List.cons_ne_nil _ _)
      | cons c names =>
        obtain ⟨y, c, rfl⟩ := List.exists_cons_of_ne_nil (h c List.mem_cons_self).ne_nil
        have hxy : x = y := (List.cons_prefix_cons.mp hpre).1
        exact (h _ List.mem_cons_self).sep_notMem (by rw [← hx, hxy]; exact List.mem_cons_self)

lemma written_written (h : ∀ c ∈ names, IsName slash period c) (path : List UInt8) :
    written (written path names) names = written path names := by
  obtain rfl | ⟨names', c, rfl⟩ := List.eq_nil_or_concat' names
  · rw [written, root_written h]
    simp [written, closed, joined]
  · have hc := h c (by simp)
    have hiff : EndsInName slash period (written path (names' ++ [c])) ↔ EndsInName slash period path := by
      rw [written, endsInName_root]
      split_ifs with hends
      · refine iff_of_true ?_ hends
        rw [joined_append_singleton]
        obtain rfl | ⟨names'', e, rfl⟩ := List.eq_nil_or_concat' names'
        · exact (endsInName_single hc.sep_notMem).mpr ⟨hc.ne_nil, hc.ne_dot, hc.ne_dots⟩
        · rw [closed_append, closed_singleton, List.append_assoc, List.append_assoc, List.singleton_append,
            ← List.append_assoc, endsInName_append]
          exact (endsInName_single hc.sep_notMem).mpr ⟨hc.ne_nil, hc.ne_dot, hc.ne_dots⟩
      · refine iff_of_false ?_ hends
        rw [closed_append, closed_singleton, ← List.append_assoc, endsInName_append]
        decide
    rw [written, root_written h, if_congr hiff rfl rfl, ← written]

lemma normalForm_written (h : ∀ c ∈ names, IsName slash period c) (path : List UInt8) :
    normalForm (written path names) = some (written path names) := by
  rw [normalForm, resolved_written h, Option.map_some, written_written h]

def NormalizesTo (path out : List UInt8) : Prop :=
  ∀ mem dst src, Placed mem dst src path →
    ∃ mem' prefixLen, normalizePathCopy mem dst src = some (.done mem' prefixLen) ∧ BytesAt mem' dst (out ++ [0])

def NormalizeFails (path : List UInt8) : Prop :=
  ∀ mem dst src, Placed mem dst src path →
    ∃ mem' prefixLen, normalizePathCopy mem dst src = some (.failed mem' prefixLen)

lemma normalizeFails_of_resolved (hnul : 0 ∉ path) (h : resolved path = none) : NormalizeFails path := by
  intro mem dst src hplaced
  have hpost := runPost_normalizePathCopyLen hnul hplaced none
  rw [normalizePathCopy]
  cases hrun : normalizePathCopyLen mem dst src none with
  | none =>
    rw [hrun] at hpost
    exact hpost.elim
  | some r =>
    cases r with
    | failed mem' prefixLen => exact ⟨mem', prefixLen, rfl⟩
    | done mem' prefixLen =>
      rw [hrun] at hpost
      obtain ⟨out, hout, -⟩ := hpost
      rw [normalForm, h] at hout
      cases hout

lemma normalizesTo_of_normalForm (hnul : 0 ∉ path) (h : normalForm path = some out) :
    NormalizesTo path out ∧ out.length ≤ path.length := by
  have hrun : ∀ mem dst src, Placed mem dst src path →
      ∃ mem' prefixLen, normalizePathCopy mem dst src = some (.done mem' prefixLen) ∧
        BytesAt mem' dst (out ++ [0]) ∧ out.length ≤ path.length := by
    intro mem dst src hplaced
    have hpost := runPost_normalizePathCopyLen hnul hplaced none
    rw [normalizePathCopy]
    cases hrun : normalizePathCopyLen mem dst src none with
    | none =>
      rw [hrun] at hpost
      exact hpost.elim
    | some r =>
      rw [hrun] at hpost
      cases r with
      | failed mem' prefixLen =>
        have hnone : normalForm path = none := hpost
        rw [h] at hnone
        cases hnone
      | done mem' prefixLen =>
        obtain ⟨out', hout, hat⟩ := hpost
        rw [h] at hout
        rw [Option.some.inj hout]
        exact ⟨mem', prefixLen, rfl, hat⟩
  refine ⟨fun mem dst src hplaced => ?_, ?_⟩
  · obtain ⟨mem', prefixLen, hdone, hat, -⟩ := hrun mem dst src hplaced
    exact ⟨mem', prefixLen, hdone, hat⟩
  · obtain ⟨-, -, -, -, hle⟩ := hrun (path ++ [0]) 0 0
      { src_at := fun k x hk => by rwa [Nat.zero_add]
        apart := .inl rfl
        room := by simp }
    exact hle

end GitCore.Path
