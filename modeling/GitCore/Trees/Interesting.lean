import GitCore.Trees.Walk

/-!
# Which entries of a tree a pathspec selects

`tree_entry_interesting` of `tree-walk.c`, and the traversal that obeys its results. `wildmatch` and the test of the
attributes are functions of the surroundings.
-/

namespace GitCore.Trees

open Index (slash)

def S_IFGITLINK : Nat := 0o160000

def isGitlink (mode : Nat) : Bool := mode &&& S_IFMT = S_IFGITLINK

/-- `struct pathspec_item`, with the bits of its magic and its flags that are read. -/
structure PathspecItem where
  pattern : List UInt8
  prefixLen : Nat
  nowildcardLen : Nat
  exclude : Bool
  icase : Bool
  glob : Bool
  onestar : Bool
  attrMatchNr : Nat
  nowildcardLen_le : nowildcardLen ≤ pattern.length
  prefixLen_le : prefixLen ≤ pattern.length

structure Pathspec where
  items : List PathspecItem
  hasWildcard : Bool
  recursive : Bool
  recurseSubmodules : Bool
  excludeMagic : Bool
  maxDepthMagic : Bool
  maxDepth : Int
  hasWildcard_iff : hasWildcard = true ↔ ∃ item ∈ items, item.nowildcardLen < item.pattern.length
  excludeMagic_iff : excludeMagic = true ↔ ∃ item ∈ items, item.exclude = true

structure Surroundings where
  /-- `wildmatch` of a pattern and a text, with `WM_PATHNAME` and `WM_CASEFOLD` or without. -/
  wildmatch : List UInt8 → List UInt8 → Bool → Bool → Bool
  /-- `match_pathspec_attrs` -/
  matchPathspecAttrs : List UInt8 → PathspecItem → Bool

inductive Interesting
  | allEntriesNotInteresting
  | entryNotInteresting
  | entryInteresting
  | allEntriesInteresting
  deriving DecidableEq

def Interesting.toInt : Interesting → Int
  | .allEntriesNotInteresting => -1
  | .entryNotInteresting => 0
  | .entryInteresting => 1
  | .allEntriesInteresting => 2

def strncmp : List UInt8 → List UInt8 → Nat → Int
  | _, _, 0 => 0
  | [], [], _ => 0
  | [], _ :: _, _ => -1
  | _ :: _, [], _ => 1
  | a :: s1, b :: s2, n + 1 => if a < b then -1 else if b < a then 1 else strncmp s1 s2 n

def toLower (c : UInt8) : UInt8 := if 0x41 ≤ c ∧ c ≤ 0x5a then c + 0x20 else c

def strncasecmp (s1 s2 : List UInt8) (n : Nat) : Int := strncmp (s1.map toLower) (s2.map toLower) n

def psStrncmp (item : PathspecItem) (s1 s2 : List UInt8) (n : Nat) : Int :=
  if item.icase then strncasecmp s1 s2 n else strncmp s1 s2 n

def psStrcmp (item : PathspecItem) (s1 s2 : List UInt8) : Int := psStrncmp item s1 s2 (s1.length + s2.length + 1)

def sizeTOfDiff (a b : Nat) : Nat := (((a : Int) - b) % 2 ^ 64).toNat

def gitFnmatch (env : Surroundings) (item : PathspecItem) (pattern string : List UInt8) (prefixLen : Nat) : Bool :=
  if 0 < prefixLen ∧ psStrncmp item pattern string prefixLen ≠ 0 then false
  else
    let pattern := pattern.drop prefixLen
    let string := string.drop prefixLen
    if item.onestar then
      let pattern := pattern.drop 1
      pattern.length ≤ string.length ∧ psStrcmp item pattern (string.drop (string.length - pattern.length)) = 0
    else env.wildmatch pattern string item.glob item.icase

/-- The part of `match_entry` behind the comparison for `never_interesting`; `m` is its result, if it was made. -/
def matchEntryRest (item : PathspecItem) (entry : TreeEntry) (pattern : List UInt8) (m : Option Int) : Bool :=
  if pattern.length < entry.path.length then false
  else if entry.path.length < pattern.length ∧ pattern.getD entry.path.length 0 ≠ slash then false
  else if entry.path.length < pattern.length ∧ ¬ isDir entry.mode ∧
      (¬ isGitlink entry.mode ∨ entry.path.length + 1 < pattern.length) then false
  else m.getD (psStrncmp item pattern entry.path entry.path.length) = 0

/-- `match_entry`, with the value of `never_interesting` that it leaves. -/
def matchEntry (item : PathspecItem) (entry : TreeEntry) (pattern : List UInt8) (neverInteresting : Interesting) :
    Bool × Interesting :=
  if item.icase then (matchEntryRest item entry pattern none, .entryNotInteresting)
  else if neverInteresting ≠ .entryNotInteresting then
    let m := strncmp pattern entry.path (min pattern.length entry.path.length)
    if m < 0 then (false, neverInteresting) else (matchEntryRest item entry pattern (some m), .entryNotInteresting)
  else (matchEntryRest item entry pattern none, neverInteresting)

def basecmp (item : PathspecItem) (base pattern : List UInt8) (len : Nat) : Int :=
  if item.icase then
    let n := min len item.prefixLen
    if strncmp base pattern n ≠ 0 then strncmp base pattern n
    else psStrncmp item (base.drop n) (pattern.drop n) (len - n)
  else psStrncmp item base pattern len

def matchDirPrefix (item : PathspecItem) (base pattern : List UInt8) (matchlen : Nat) : Bool :=
  if basecmp item base pattern matchlen ≠ 0 then false
  else matchlen = 0 ∨ base.getD matchlen 0 = slash ∨ pattern.getD (matchlen - 1) 0 = slash

def matchWildcardBase (item : PathspecItem) (base : List UInt8) : Bool :=
  if base.length ≠ 0 then
    if item.nowildcardLen ≤ base.length then basecmp item base item.pattern item.nowildcardLen = 0
    else basecmp item base item.pattern base.length = 0
  else true

def withinDepth : List UInt8 → Int → Int → Bool
  | [], depth, maxDepth => depth ≤ maxDepth
  | c :: name, depth, maxDepth =>
    if c ≠ slash then withinDepth name depth maxDepth
    else if maxDepth < depth + 1 then false
    else withinDepth name (depth + 1) maxDepth

/-- The way that a round of the loop of `do_match` goes on: with the next item, at the label `interesting`, or it
returns. -/
inductive ItemResult
  | next (neverInteresting : Interesting)
  | interesting
  | done (result : Interesting)
  deriving DecidableEq

def matchWildcards (env : Surroundings) (ps : Pathspec) (entry : TreeEntry) (base : List UInt8) (item : PathspecItem)
    (neverInteresting : Interesting) : ItemResult :=
  if item.nowildcardLen = item.pattern.length then .next neverInteresting
  else if item.nowildcardLen ≠ 0 ∧ ¬ matchWildcardBase item base then .next neverInteresting
  else if gitFnmatch env item item.pattern (base ++ entry.path) item.nowildcardLen then .interesting
  else if ps.recurseSubmodules ∧ isGitlink entry.mode ∧
      psStrncmp item item.pattern (base ++ entry.path) item.nowildcardLen = 0 then .interesting
  else if ps.recursive ∧ isDir entry.mode then .done .entryInteresting
  else .next neverInteresting

/-- A round of the loop of `do_match`, up to the label `interesting`. -/
def doMatchItem (env : Surroundings) (ps : Pathspec) (entry : TreeEntry) (base : List UInt8) (item : PathspecItem)
    (neverInteresting : Interesting) : ItemResult :=
  let baselen := base.length
  let matchlen := item.pattern.length
  if matchlen ≤ baselen then
    if ¬ matchDirPrefix item base item.pattern matchlen then matchWildcards env ps entry base item neverInteresting
    else if ¬ ps.recursive ∨ ¬ ps.maxDepthMagic ∨ ps.maxDepth = -1 then
      if item.attrMatchNr = 0 then .done .allEntriesInteresting else .interesting
    else if withinDepth (base.drop (matchlen + 1)) (if isDir entry.mode then 1 else 0) ps.maxDepth then .interesting
    else .done .entryNotInteresting
  else if baselen = 0 ∨ basecmp item base item.pattern baselen = 0 then
    let pattern := item.pattern.drop baselen
    let hit := matchEntry item entry pattern neverInteresting
    if hit.1 then .interesting
    else if item.nowildcardLen < matchlen then
      if gitFnmatch env item pattern entry.path (item.nowildcardLen - baselen) then .interesting
      else if ps.recursive ∧ isDir entry.mode then .done .entryInteresting
      else if ps.recurseSubmodules ∧ isGitlink entry.mode ∧
          psStrncmp item pattern entry.path (sizeTOfDiff item.nowildcardLen baselen) = 0 then .interesting
      else .next hit.2
    else .next hit.2
  else matchWildcards env ps entry base item neverInteresting

def doMatchLoop (env : Surroundings) (ps : Pathspec) (entry : TreeEntry) (base : List UInt8) (exclude : Bool) :
    List PathspecItem → Interesting → Interesting
  | [], neverInteresting => neverInteresting
  | item :: items, neverInteresting =>
    if item.exclude ≠ exclude then doMatchLoop env ps entry base exclude items neverInteresting
    else
      match doMatchItem env ps entry base item neverInteresting with
      | .next neverInteresting => doMatchLoop env ps entry base exclude items neverInteresting
      | .done result => result
      | .interesting =>
        if item.attrMatchNr = 0 then .entryInteresting
        else if isDir entry.mode then .entryInteresting
        else if env.matchPathspecAttrs (base ++ entry.path) item then .entryInteresting
        else doMatchLoop env ps entry base exclude items .entryNotInteresting

def doMatch (env : Surroundings) (entry : TreeEntry) (base : List UInt8) (ps : Pathspec) (exclude : Bool) :
    Interesting :=
  if ps.items = [] then
    if ¬ ps.recursive ∨ ¬ ps.maxDepthMagic ∨ ps.maxDepth = -1 then .allEntriesInteresting
    else if withinDepth base (if isDir entry.mode then 1 else 0) ps.maxDepth then .entryInteresting
    else .entryNotInteresting
  else
    doMatchLoop env ps entry base exclude ps.items.reverse
      (if ps.hasWildcard then .entryNotInteresting else .allEntriesNotInteresting)

def treeEntryInteresting (env : Surroundings) (entry : TreeEntry) (base : List UInt8) (ps : Pathspec) : Interesting :=
  let positive := doMatch env entry base ps false
  if ¬ ps.excludeMagic ∨ positive.toInt ≤ Interesting.entryNotInteresting.toInt then positive
  else
    let negative := doMatch env entry base ps true
    if positive = .allEntriesInteresting ∧ negative = .entryNotInteresting then .entryInteresting
    else if negative.toInt ≤ Interesting.entryNotInteresting.toInt then positive
    else if isDir entry.mode ∧ Interesting.entryInteresting.toInt ≤ positive.toInt ∧ negative = .entryInteresting then
      .entryInteresting
    else if (positive = .entryInteresting ∧ Interesting.entryInteresting.toInt ≤ negative.toInt) ∨
        (positive = .allEntriesInteresting ∧ negative = .entryInteresting) then .entryNotInteresting
    else .allEntriesNotInteresting

inductive TreeNode
  | node (entry : TreeEntry) (children : List TreeNode)

def TreeNode.entry : TreeNode → TreeEntry
  | .node entry _ => entry

def TreeNode.children : TreeNode → List TreeNode
  | .node _ children => children

def subBase (base : List UInt8) (entry : TreeEntry) : List UInt8 := base ++ entry.path ++ [slash]

def matchBefore (ps : Pathspec) : Interesting :=
  if ps.items = [] then .allEntriesInteresting else .entryNotInteresting

mutual

/-- The loop of `process_tree_contents` with the value of `match`: the paths and the modes of the blobs that are
processed. -/
def processEntries (env : Surroundings) (ps : Pathspec) (base : List UInt8) (matched : Interesting) :
    List TreeNode → List (List UInt8 × Nat)
  | [] => []
  | node :: nodes =>
    let matched :=
      if matched ≠ .allEntriesInteresting then treeEntryInteresting env node.entry base ps else matched
    if matched = .allEntriesNotInteresting then []
    else if matched = .entryNotInteresting then processEntries env ps base matched nodes
    else processNode env ps base node ++ processEntries env ps base matched nodes

def processNode (env : Surroundings) (ps : Pathspec) (base : List UInt8) : TreeNode → List (List UInt8 × Nat)
  | .node entry children =>
    if isDir entry.mode then processEntries env ps (subBase base entry) (matchBefore ps) children
    else if isGitlink entry.mode then []
    else [(base ++ entry.path, entry.mode)]

end

def processTreeContents (env : Surroundings) (ps : Pathspec) (base : List UInt8) (nodes : List TreeNode) :
    List (List UInt8 × Nat) :=
  processEntries env ps base (matchBefore ps) nodes

mutual

/-- The loop of `read_tree_at` with the value of `retval`, where `fn` goes into the directories only: the paths and
the modes of the other entries that it is called for. The result of a directory is put into `retval`. -/
def readEntries (env : Surroundings) (ps : Pathspec) (base : List UInt8) (retval : Interesting) :
    List TreeNode → List (List UInt8 × Nat)
  | [] => []
  | node :: nodes =>
    let retval :=
      if retval ≠ .allEntriesInteresting then treeEntryInteresting env node.entry base ps else retval
    if retval = .allEntriesNotInteresting then []
    else if retval = .entryNotInteresting then readEntries env ps base retval nodes
    else
      readNode env ps base node ++
        readEntries env ps base (if isDir node.entry.mode then .entryNotInteresting else retval) nodes

def readNode (env : Surroundings) (ps : Pathspec) (base : List UInt8) : TreeNode → List (List UInt8 × Nat)
  | .node entry children =>
    if isDir entry.mode then readEntries env ps (subBase base entry) .entryNotInteresting children
    else [(base ++ entry.path, entry.mode)]

end

def readTreeAt (env : Surroundings) (ps : Pathspec) (base : List UInt8) (nodes : List TreeNode) :
    List (List UInt8 × Nat) :=
  readEntries env ps base .entryNotInteresting nodes

end GitCore.Trees
