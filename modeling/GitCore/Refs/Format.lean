import Mathlib.Tactic

/-!
# The format of a ref name

`check_refname_format` and `sanitize_refname_component` of `refs.c`, which share one walk over the name. A name
is the list of its bytes before the NUL, and the result -1 is `none`.
-/

namespace GitCore.Refname

def refnameDisposition : List Nat := [
  1, 4, 4, 4, 4, 4, 4, 4, 4, 4, 4, 4, 4, 4, 4, 4,
  4, 4, 4, 4, 4, 4, 4, 4, 4, 4, 4, 4, 4, 4, 4, 4,
  4, 0, 0, 0, 0, 0, 0, 0, 0, 0, 5, 0, 0, 0, 2, 1,
  0, 0, 0, 0, 0, 0, 0, 0, 0, 0, 4, 0, 0, 0, 0, 4,
  0, 0, 0, 0, 0, 0, 0, 0, 0, 0, 0, 0, 0, 0, 0, 0,
  0, 0, 0, 0, 0, 0, 0, 0, 0, 0, 0, 4, 4, 0, 4, 0,
  0, 0, 0, 0, 0, 0, 0, 0, 0, 0, 0, 0, 0, 0, 0, 0,
  0, 0, 0, 0, 0, 0, 0, 0, 0, 0, 0, 3, 0, 0, 4, 4]

def disposition (ch : UInt8) : Nat :=
  refnameDisposition.getD ch.toNat 0

def dash : UInt8 := 0x2d

def period : UInt8 := 0x2e

def slash : UInt8 := 0x2f

def atSign : UInt8 := 0x40

def LOCK_SUFFIX : List UInt8 := [0x2e, 0x6c, 0x6f, 0x63, 0x6b]

structure RefnameFlags where
  allowOnelevel : Bool
  refspecPattern : Bool
deriving DecidableEq

def repair (violated : Prop) [Decidable violated] (change : List UInt8 → List UInt8) (sanitized : Option (List UInt8)) :
    Option (Option (List UInt8)) :=
  if violated then sanitized.map fun buf => some (change buf) else some sanitized

/-- `sanitized->buf[sanitized->len-1] = '-'` -/
def dashLast (buf : List UInt8) : List UInt8 := buf.set (buf.length - 1) dash

/-- `while (strbuf_strip_suffix(sanitized, LOCK_SUFFIX))` -/
def stripLock (buf : List UInt8) : List UInt8 :=
  if LOCK_SUFFIX <:+ buf then stripLock (buf.take (buf.length - LOCK_SUFFIX.length)) else buf
termination_by buf.length
decreasing_by
  rename_i h
  have := h.length_le
  simp only [LOCK_SUFFIX, List.length_cons, List.length_take] at this ⊢
  omega

/-- The loop over the characters of a component: its length, the flags and the buffer. -/
def scanComponent (flags : RefnameFlags) (last : UInt8) (sanitized : Option (List UInt8)) :
    List UInt8 → Option (Nat × RefnameFlags × Option (List UInt8))
  | [] => some (0, flags, sanitized)
  | ch :: refname =>
    if disposition ch = 1 then some (0, flags, sanitized)
    else do
      let sanitized := sanitized.map (· ++ [ch])
      let (flags, sanitized) ← match disposition ch with
        | 2 => (repair (last = period) List.dropLast sanitized).map ((flags, ·))
        | 3 => (repair (last = atSign) dashLast sanitized).map ((flags, ·))
        | 4 => (repair True dashLast sanitized).map ((flags, ·))
        | 5 => (repair (¬flags.refspecPattern) dashLast sanitized).map (({ flags with refspecPattern := false }, ·))
        | _ => some (flags, sanitized)
      let (len, result) ← scanComponent flags ch sanitized refname
      some (len + 1, result)

def checkRefnameComponent (refname : List UInt8) (flags : RefnameFlags) (sanitized : Option (List UInt8)) :
    Option (Nat × RefnameFlags × Option (List UInt8)) := do
  let componentStart := (sanitized.getD []).length
  let (len, flags, sanitized) ← scanComponent flags 0 sanitized refname
  if len = 0 then some (0, flags, sanitized)
  else
    let sanitized ← repair (refname.head? = some period) (·.set componentStart dash) sanitized
    let sanitized ← repair (LOCK_SUFFIX <:+ refname.take len) stripLock sanitized
    some (len, flags, sanitized)

/-- `strbuf_complete(sanitized, '/')` -/
def complete (buf : List UInt8) : List UInt8 :=
  if buf ≠ [] ∧ buf.getLast? ≠ some slash then buf ++ [slash] else buf

/-- The loop over the components from `refname` on, and the tests behind it. -/
def checkComponents (flags : RefnameFlags) (sanitized : Option (List UInt8)) (refname : List UInt8)
    (componentCount : Nat) : Option (Option (List UInt8)) :=
  match checkRefnameComponent refname flags (sanitized.map complete) with
  | none => none
  | some (len, flags, sanitized) =>
    if sanitized = none ∧ len = 0 then none
    else if len < refname.length ∧ refname.getD len 0 ≠ 0 then
      checkComponents flags sanitized (refname.drop (len + 1)) (componentCount + 1)
    -- the dot at the end is left in the buffer
    else if sanitized = none ∧ (refname.take len).getLast? = some period then none
    else if ¬flags.allowOnelevel ∧ componentCount + 1 < 2 then none
    else some sanitized
termination_by refname.length
decreasing_by grind

def checkOrSanitizeRefname (refname : List UInt8) (flags : RefnameFlags) (sanitized : Option (List UInt8)) :
    Option (Option (List UInt8)) := do
  let sanitized ← repair (refname = [atSign]) (· ++ [dash]) sanitized
  checkComponents flags sanitized refname 0

def checkRefnameFormat (refname : List UInt8) (flags : RefnameFlags) : Bool :=
  (checkOrSanitizeRefname refname flags none).isSome

def REFNAME_ALLOW_ONELEVEL : RefnameFlags where
  allowOnelevel := true
  refspecPattern := false

/-- `sanitize_refname_component` into an empty buffer; `none` is the `BUG`. -/
def sanitizeRefnameComponent (refname : List UInt8) : Option (List UInt8) :=
  (checkOrSanitizeRefname refname REFNAME_ALLOW_ONELEVEL (some [])).join

end GitCore.Refname
