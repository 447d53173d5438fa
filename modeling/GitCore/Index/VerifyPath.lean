import Mathlib.Tactic

/-!
# Paths that may be in the index

`verify_path_internal` of `read-cache.c` on a system with slashes as directory separators, with the
recognisers for HFS+ (`utf8.c`) and NTFS (`path.c`). A string is the list of its bytes in front of
the NUL.
-/

namespace GitCore.VerifyPath

abbrev dot : UInt8 := 46

abbrev slash : UInt8 := 47

abbrev backslash : UInt8 := 92

abbrev colon : UInt8 := 58

abbrev space : UInt8 := 32

abbrev tilde : UInt8 := 126

def toLower (c : UInt8) : UInt8 := if 65 ≤ c ∧ c ≤ 90 then c + 32 else c

def charAt (s : List UInt8) (i : Nat) : UInt8 := s.getD i 0

def isXplatformDirSep (c : UInt8) : Bool := c = slash || c = backslash

def sIsLnk (mode : Nat) : Bool := mode &&& 0o170000 = 0o120000

def sIsDir (mode : Nat) : Bool := mode &&& 0o170000 = 0o040000

section Ntfs

def ntfsDotgitEnd : List UInt8 → Bool
  | [] => true
  | c :: name =>
    if c = 0 ∨ isXplatformDirSep c = true ∨ c = colon then true
    else if c ≠ dot ∧ c ≠ space then false
    else ntfsDotgitEnd name

def isLetter (c lower : UInt8) : Bool := c = lower || c = lower - 32

def isNtfsDotgit (name : List UInt8) : Bool :=
  if charAt name 0 = dot then
    if isLetter (charAt name 1) 103 && isLetter (charAt name 2) 105 && isLetter (charAt name 3) 116 then
      ntfsDotgitEnd (name.drop 4)
    else false
  else if isLetter (charAt name 0) 103 then
    if isLetter (charAt name 1) 105 && isLetter (charAt name 2) 116 && charAt name 3 = tilde && charAt name 4 = 49 then
      ntfsDotgitEnd (name.drop 5)
    else false
  else false

def strncasecmpEq : Nat → List UInt8 → List UInt8 → Bool
  | 0, _, _ => true
  | n + 1, a, b =>
    if toLower (charAt a 0) ≠ toLower (charAt b 0) then false
    else if charAt a 0 = 0 then true
    else strncasecmpEq n a.tail b.tail

def onlySpacesAndPeriods : List UInt8 → Bool
  | [] => true
  | c :: name =>
    if c = 0 ∨ c = colon then true
    else if c ≠ space ∧ c ≠ dot then false
    else onlySpacesAndPeriods name

/-- The loop over a fall-back short name from index `i` on. -/
def ntfsShortname (name shortnamePrefix : List UInt8) (i : Nat) (sawTilde : Bool) : Bool :=
  if i < 8 then
    if charAt name i = 0 then false
    else if sawTilde = true then
      if charAt name i < 48 ∨ 57 < charAt name i then false else ntfsShortname name shortnamePrefix (i + 1) true
    else if charAt name i = tilde then
      if charAt name (i + 1) < 49 ∨ 57 < charAt name (i + 1) then false
      else ntfsShortname name shortnamePrefix (i + 2) true
    else if 6 ≤ i then false
    else if charAt name i &&& 0x80 ≠ 0 then false
    else if toLower (charAt name i) ≠ charAt shortnamePrefix i then false
    else ntfsShortname name shortnamePrefix (i + 1) false
  else onlySpacesAndPeriods (name.drop i)
termination_by 8 - i

def isNtfsDotGeneric (name dotgitName : List UInt8) (len : Nat) (shortnamePrefix : List UInt8) : Bool :=
  if charAt name 0 = dot && strncasecmpEq len name.tail dotgitName then onlySpacesAndPeriods (name.drop (len + 1))
  else if strncasecmpEq 6 name dotgitName && charAt name 6 = tilde && (49 ≤ charAt name 7 && charAt name 7 ≤ 52) then
    onlySpacesAndPeriods (name.drop 8)
  else ntfsShortname name shortnamePrefix 0 false

abbrev gitName : List UInt8 := [103, 105, 116]

abbrev gitmodulesName : List UInt8 := [103, 105, 116, 109, 111, 100, 117, 108, 101, 115]

abbrev gitmodulesShortname : List UInt8 := [103, 105, 55, 101, 98, 97]

def isNtfsDotgitmodules (name : List UInt8) : Bool :=
  isNtfsDotGeneric name gitmodulesName gitmodulesName.length gitmodulesShortname

end Ntfs

section Hfs

def pickOneUtf8Char (s : List UInt8) : Option (Nat × List UInt8) :=
  let s0 := charAt s 0
  let s1 := charAt s 1
  let s2 := charAt s 2
  let s3 := charAt s 3
  if s0 < 0x80 then some (s0.toNat, s.drop 1)
  else if s0 &&& 0xe0 = 0xc0 then
    if s1 &&& 0xc0 ≠ 0x80 ∨ s0 &&& 0xfe = 0xc0 then none
    else some ((s0 &&& 0x1f).toNat * 64 + (s1 &&& 0x3f).toNat, s.drop 2)
  else if s0 &&& 0xf0 = 0xe0 then
    if s1 &&& 0xc0 ≠ 0x80 ∨ s2 &&& 0xc0 ≠ 0x80 ∨ (s0 = 0xe0 ∧ s1 &&& 0xe0 = 0x80) ∨ (s0 = 0xed ∧ s1 &&& 0xe0 = 0xa0) ∨
        (s0 = 0xef ∧ s1 = 0xbf ∧ s2 &&& 0xfe = 0xbe) then none
    else some ((s0 &&& 0x0f).toNat * 4096 + (s1 &&& 0x3f).toNat * 64 + (s2 &&& 0x3f).toNat, s.drop 3)
  else if s0 &&& 0xf8 = 0xf0 then
    if s1 &&& 0xc0 ≠ 0x80 ∨ s2 &&& 0xc0 ≠ 0x80 ∨ s3 &&& 0xc0 ≠ 0x80 ∨ (s0 = 0xf0 ∧ s1 &&& 0xf0 = 0x80) ∨
        (s0 = 0xf4 ∧ 0x8f < s1) ∨ 0xf4 < s0 then none
    else some ((s0 &&& 0x07).toNat * 262144 + (s1 &&& 0x3f).toNat * 4096 + (s2 &&& 0x3f).toNat * 64 + (s3 &&& 0x3f).toNat,
      s.drop 4)
  else none

def hfsIgnored : List Nat :=
  [0x200c, 0x200d, 0x200e, 0x200f, 0x202a, 0x202b, 0x202c, 0x202d, 0x202e, 0x206a, 0x206b, 0x206c, 0x206d, 0x206e, 0x206f,
    0xfeff]

lemma pickOneUtf8Char_lt {s : List UInt8} {r : Nat × List UInt8} (h : pickOneUtf8Char s = some r) (hs : s ≠ []) :
    r.2.length < s.length := by
  have hpos := List.length_pos_of_ne_nil hs
  rw [pickOneUtf8Char] at h
  split_ifs at h <;> rw [← Option.some_inj.mp h, List.length_drop] <;> omega

def nextHfsChar (s : List UInt8) : Nat × List UInt8 :=
  if _hs : s = [] then (0, [])
  else
    match _h : pickOneUtf8Char s with
    | none => (0, [])
    | some r => if r.1 ∈ hfsIgnored then nextHfsChar r.2 else r
termination_by s.length
decreasing_by exact pickOneUtf8Char_lt _h _hs

/-- The loop over the needle, and the end of `is_hfs_dot_generic`. -/
def hfsNeedle : List UInt8 → List UInt8 → Bool
  | [], path => (nextHfsChar path).1 = 0 || (nextHfsChar path).1 = slash.toNat
  | n :: needle, path =>
    if 127 < (nextHfsChar path).1 then false
    else if toLower (UInt8.ofNat (nextHfsChar path).1) ≠ n then false
    else hfsNeedle needle (nextHfsChar path).2

def isHfsDotGeneric (path needle : List UInt8) : Bool :=
  (nextHfsChar path).1 = dot.toNat && hfsNeedle needle (nextHfsChar path).2

def isHfsDotgit (path : List UInt8) : Bool := isHfsDotGeneric path gitName

def isHfsDotgitmodules (path : List UInt8) : Bool := isHfsDotGeneric path gitmodulesName

end Hfs

def isEnd (c : UInt8) : Bool := c = 0 || c = slash

def verifyDotfile (rest : List UInt8) (mode : Nat) : Bool :=
  if isEnd (charAt rest 0) = true then false
  else if isLetter (charAt rest 0) 103 = true then
    if isLetter (charAt rest 1) 105 = false then true
    else if isLetter (charAt rest 2) 116 = false then true
    else if isEnd (charAt rest 3) = true then false
    else if sIsLnk mode && (strncasecmpEq 7 (rest.drop 3) (gitmodulesName.drop 3) && isEnd (charAt rest 10)) then false
    else true
  else if charAt rest 0 = dot then !isEnd (charAt rest 1)
  else true

inductive VerifyPathResult
  | ok
  | dirWithSep
  | invalid
  deriving DecidableEq

def ntfsForbids (path : List UInt8) (mode : Nat) : Bool :=
  isNtfsDotgit path || (sIsLnk mode && isNtfsDotgitmodules path)

def hfsForbids (path : List UInt8) (mode : Nat) : Bool :=
  isHfsDotgit path || (sIsLnk mode && isHfsDotgitmodules path)

/-- The loop of `verify_path_internal` with the next character in front; `inside` is the start of a
component behind a slash. -/
def verifyPathLoop (protectHfs protectNtfs : Bool) (mode : Nat) : Bool → List UInt8 → VerifyPathResult
  | true, [] =>
    if (protectHfs && hfsForbids [] mode) || (protectNtfs && ntfsForbids [] mode) then .invalid
    else if sIsDir mode then .dirWithSep
    else .invalid
  | true, c :: path =>
    if (protectHfs && hfsForbids (c :: path) mode) || (protectNtfs && ntfsForbids (c :: path) mode) then .invalid
    else if (c = dot && !verifyDotfile path mode) || c = slash then .invalid
    else if c = 0 then if sIsDir mode then .dirWithSep else .invalid
    else verifyPathLoop protectHfs protectNtfs mode false path
  | false, [] => .ok
  | false, c :: path =>
    if c = 0 then .ok
    else if c = slash then verifyPathLoop protectHfs protectNtfs mode true path
    else if c = backslash && protectNtfs then
      if ntfsForbids path mode then .invalid else verifyPathLoop protectHfs protectNtfs mode false path
    else verifyPathLoop protectHfs protectNtfs mode false path

def verifyPathInternal (protectHfs protectNtfs : Bool) (path : List UInt8) (mode : Nat) : VerifyPathResult :=
  verifyPathLoop protectHfs protectNtfs mode true path

def verifyPath (protectHfs protectNtfs : Bool) (path : List UInt8) (mode : Nat) : Bool :=
  verifyPathInternal protectHfs protectNtfs path mode = .ok

end GitCore.VerifyPath
