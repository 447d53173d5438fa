import GitCore.Lib.Components
import GitCore.Lib.Loop

/-!
# Normalizing a path in memory

`normalize_path_copy_len` of `path.c`, on a system whose separator is the slash. The source and the destination are
places in one memory, which may be the same; an access outside of the memory has no result.
-/

namespace GitCore.Path

def slash : UInt8 := 0x2f

def period : UInt8 := 0x2e

def isDirSep (c : UInt8) : Bool := c = slash

def skipSlashes (mem : List UInt8) (p : Nat) : Option Nat :=
  match _h : mem[p]? with
  | none => none
  | some c => if isDirSep c then skipSlashes mem (p + 1) else some p
termination_by mem.length - p
decreasing_by
  have := (List.getElem?_eq_some_iff.mp _h).1
  omega

/-- The variables of `normalize_path_copy_len`. -/
structure NormalizeState where
  mem : List UInt8
  src : Nat
  dst : Nat
  prefixLen : Option Nat

/-- `*dst++ = c` -/
def NormalizeState.write (st : NormalizeState) (c : UInt8) : Option NormalizeState :=
  if st.dst < st.mem.length then some { st with mem := st.mem.set st.dst c, dst := st.dst + 1 } else none

lemma length_write {st st' : NormalizeState} {c : UInt8} (h : st.write c = some st') :
    st'.mem.length = st.mem.length ∧ st'.src = st.src := by
  rw [NormalizeState.write] at h
  split_ifs at h
  rw [← Option.some.inj h]
  exact ⟨List.length_set, rfl⟩

def copyComponent (st : NormalizeState) : Option (NormalizeState × UInt8) :=
  match _h : st.mem[st.src]? with
  | none => none
  | some c =>
    if c ≠ 0 ∧ ¬isDirSep c then
      match _hwrite : ({ st with src := st.src + 1 } : NormalizeState).write c with
      | none => none
      | some st' => copyComponent st'
    else some ({ st with src := st.src + 1 }, c)
termination_by st.mem.length - st.src
decreasing_by
  have hlt := (List.getElem?_eq_some_iff.mp _h).1
  obtain ⟨hlength, hsrc⟩ := length_write _hwrite
  rw [hlength, hsrc]
  dsimp only
  omega

inductive DotKind
  | dotEnd
  | dotSlash
  | dotDotEnd
  | dotDotSlash
  | other
  deriving DecidableEq

def dotKind (mem : List UInt8) (src : Nat) : Option DotKind := do
  let c ← mem[src]?
  if c ≠ period then return .other
  let c1 ← mem[src + 1]?
  if c1 = 0 then return .dotEnd
  if isDirSep c1 then return .dotSlash
  if c1 ≠ period then return .other
  let c2 ← mem[src + 2]?
  if c2 = 0 then return .dotDotEnd
  if isDirSep c2 then return .dotDotSlash
  return .other

inductive NormalizeResult
  | failed (mem : List UInt8) (prefixLen : Option Nat)
  | done (mem : List UInt8) (prefixLen : Option Nat)

def copyRound (st : NormalizeState) : NormalizeState ⊕ Option NormalizeResult :=
  match copyComponent st with
  | none => .inr none
  | some (st, c) =>
    if isDirSep c then
      match st.write slash with
      | none => .inr none
      | some st =>
        match skipSlashes st.mem st.src with
        | none => .inr none
        | some src => .inl { st with src := src }
    else .inr ((st.write 0).map fun st => .done st.mem st.prefixLen)

def stripLast (mem : List UInt8) (dst0 : Nat) : Nat → Nat
  | 0 => 0
  | dst + 1 => if dst0 < dst + 1 ∧ mem[dst]? ≠ some slash then stripLast mem dst0 dst else dst + 1

def upOne (dst0 : Nat) (st : NormalizeState) : NormalizeState ⊕ Option NormalizeResult :=
  if st.dst - 1 ≤ dst0 then .inr (some (.failed st.mem st.prefixLen))
  else
    let dst := stripLast st.mem dst0 (st.dst - 1)
    .inl { st with
      dst := dst
      prefixLen := st.prefixLen.map fun len => if dst - dst0 < len then dst - dst0 else len }

def round (dst0 : Nat) (st : NormalizeState) : NormalizeState ⊕ Option NormalizeResult :=
  match dotKind st.mem st.src with
  | none => .inr none
  | some .dotEnd => copyRound { st with src := st.src + 1 }
  | some .dotSlash =>
    match skipSlashes st.mem (st.src + 2) with
    | none => .inr none
    | some src => .inl { st with src := src }
  | some .dotDotEnd => upOne dst0 { st with src := st.src + 2 }
  | some .dotDotSlash =>
    match skipSlashes st.mem (st.src + 3) with
    | none => .inr none
    | some src => upOne dst0 { st with src := src }
  | some .other => copyRound st

lemma le_skipSlashes {mem : List UInt8} {p q : Nat} (h : skipSlashes mem p = some q) : p ≤ q := by
  induction hn : mem.length - p using Nat.strong_induction_on generalizing p with
  | _ n ih =>
    rw [skipSlashes] at h
    split at h
    · cases h
    · rename_i c hget
      have hlt := (List.getElem?_eq_some_iff.mp hget).1
      split_ifs at h
      · exact (Nat.le_succ p).trans (ih _ (by omega) h rfl)
      · exact (Option.some.inj h).le

lemma copyComponent_src {st st' : NormalizeState} {c : UInt8} (h : copyComponent st = some (st', c)) :
    st'.mem.length = st.mem.length ∧ st.src < st.mem.length ∧ st.src < st'.src := by
  induction hn : st.mem.length - st.src using Nat.strong_induction_on generalizing st with
  | _ n ih =>
    rw [copyComponent] at h
    split at h
    · cases h
    · rename_i c' hget
      have hlt := (List.getElem?_eq_some_iff.mp hget).1
      split_ifs at h
      · split at h
        · cases h
        · rename_i st₁ hwrite
          obtain ⟨hlength, hsrc⟩ := length_write hwrite
          dsimp only at hlength hsrc
          obtain ⟨hlength', -, hlt'⟩ := ih _ (by omega) h rfl
          exact ⟨hlength'.trans hlength, hlt, by omega⟩
      · obtain ⟨rfl, -⟩ := Prod.mk.inj (Option.some.inj h)
        exact ⟨rfl, hlt, Nat.lt_succ_self _⟩

def NormalizeState.size (st : NormalizeState) : Nat := st.mem.length - st.src

lemma size_copyRound {st st' : NormalizeState} (h : copyRound st = .inl st') : st'.size < st.size := by
  rw [copyRound] at h
  split at h
  · cases h
  · rename_i st₁ c hcopy
    obtain ⟨hlength, hlt, hsrc⟩ := copyComponent_src hcopy
    split_ifs at h
    split at h
    · cases h
    · rename_i st₂ hwrite
      obtain ⟨hlength', hsrc'⟩ := length_write hwrite
      split at h
      · cases h
      · rename_i src hskip
        have hle := le_skipSlashes hskip
        rw [← Sum.inl.inj h, NormalizeState.size, NormalizeState.size]
        dsimp only
        omega

lemma size_upOne {dst0 : Nat} {st st' : NormalizeState} (h : upOne dst0 st = .inl st') : st'.size = st.size := by
  rw [upOne] at h
  split_ifs at h
  rw [← Sum.inl.inj h]
  rfl

lemma lt_of_dotKind {mem : List UInt8} {src : Nat} {kind : DotKind} (h : dotKind mem src = some kind) :
    src < mem.length := by
  rw [dotKind] at h
  by_contra hge
  rw [List.getElem?_eq_none (Nat.not_lt.mp hge)] at h
  cases h

lemma size_round {dst0 : Nat} {st st' : NormalizeState} (h : round dst0 st = .inl st') : st'.size < st.size := by
  rw [round] at h
  cases hkind : dotKind st.mem st.src with
  | none => simp [hkind] at h
  | some kind =>
    have hlt := lt_of_dotKind hkind
    have hfurther : ∀ n, st.src < n → st.mem.length - n < st.size := fun n hn => by
      rw [NormalizeState.size]
      omega
    rw [hkind] at h
    cases kind with
    | dotEnd =>
      have hsize := size_copyRound h
      exact hsize.trans (hfurther _ (Nat.lt_succ_self _))
    | dotSlash =>
      dsimp only at h
      split at h
      · cases h
      · rename_i src hskip
        have hle := le_skipSlashes hskip
        rw [← Sum.inl.inj h]
        exact hfurther src (by omega)
    | dotDotEnd =>
      rw [size_upOne h]
      exact hfurther (st.src + 2) (by omega)
    | dotDotSlash =>
      dsimp only at h
      split at h
      · cases h
      · rename_i src hskip
        have hle := le_skipSlashes hskip
        rw [size_upOne h]
        exact hfurther src (by omega)
    | other => exact size_copyRound h

def normalizeLoop (dst0 : Nat) (st : NormalizeState) : Option NormalizeResult :=
  loop (round dst0) NormalizeState.size (fun _ _ => size_round) st

def normalizePathCopyLen (mem : List UInt8) (dst src : Nat) (prefixLen : Option Nat) : Option NormalizeResult := do
  -- `offset_1st_component`
  let c ← mem[src]?
  let st : NormalizeState := { mem := mem, src := src, dst := dst, prefixLen := prefixLen }
  let st ← if isDirSep c then ({ st with src := src + 1 } : NormalizeState).write slash else some st
  let src ← skipSlashes st.mem st.src
  normalizeLoop st.dst { st with src := src }

def normalizePathCopy (mem : List UInt8) (dst src : Nat) : Option NormalizeResult :=
  normalizePathCopyLen mem dst src none

end GitCore.Path
