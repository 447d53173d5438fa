import GitCore.Trees.Walk

/-!
# The changed paths of a commit

`diff_tree_oid` of `tree-diff.c` as `get_or_compute_bloom_filter` calls it: recursive, one parent, no
pathspec, and a limit on the number of changes. The queue holds the paths of the file pairs.
-/

namespace GitCore.Bloom

open Index (slash)
open Trees (TreeEntry isDir baseNameCompare endByte)

abbrev Oid := List UInt8

def S_IFGITLINK : Nat := 0o160000

def isGitlink (mode : Nat) : Bool := mode &&& Trees.S_IFMT = S_IFGITLINK

/-- The readable trees. No tree contains itself, the names of entries are what may stand between
the slashes of a path, and `canon_mode` leaves no mode 0. -/
structure ObjectStore where
  readTree : Oid → Option (List TreeEntry)
  depth : Oid → Nat
  depth_lt : ∀ {oid es e}, readTree oid = some es → e ∈ es → isDir e.mode = true → depth e.oid < depth oid
  name_ok : ∀ {oid es e}, readTree oid = some es → e ∈ es → e.path ≠ [] ∧ slash ∉ e.path ∧ (0 : UInt8) ∉ e.path
  mode_ne : ∀ {oid es e}, readTree oid = some es → e ∈ es → e.mode ≠ 0

/-- What the diff reads of `struct diff_options`, and the settings of the repository. -/
structure DiffOptions where
  maxChanges : Int
  maxAllowedTreeDepth : Nat
  isSubmoduleIgnored : List UInt8 → Bool

/-- `diff_queue_change` and `diff_queue_addremove`, as `emit_diff_first_parent_only` selects them. -/
def queuePair (opt : DiffOptions) (mode p0mode : Nat) (path : List UInt8) (queue : List (List UInt8)) :
    List (List UInt8) :=
  if mode ≠ 0 ∧ p0mode ≠ 0 then
    if isGitlink p0mode ∧ isGitlink mode ∧ opt.isSubmoduleIgnored path then queue else queue ++ [path]
  else
    let m := if mode ≠ 0 then mode else p0mode
    if isGitlink m ∧ opt.isSubmoduleIgnored path then queue else queue ++ [path]

def fillTreeDescriptor (s : ObjectStore) : Option Oid → Option (List TreeEntry)
  | none => some []
  | some oid => s.readTree oid

abbrev Recurse := Option Oid → Option Oid → List UInt8 → List (List UInt8) → Option (List (List UInt8))

def emitPath (recurse : Recurse) (opt : DiffOptions) (base : List UInt8) (t tp : Option TreeEntry)
    (queue : List (List UInt8)) : Option (List (List UInt8)) :=
  match t.or tp with
  | none => some queue
  | some e =>
    if isDir e.mode then recurse (t.map TreeEntry.oid) (tp.map TreeEntry.oid) (base ++ e.path ++ [slash]) queue
    else some (queuePair opt ((t.map TreeEntry.mode).getD 0) ((tp.map TreeEntry.mode).getD 0) (base ++ e.path) queue)

def tooMany (opt : DiffOptions) (queue : List (List UInt8)) : Bool :=
  opt.maxChanges ≠ 0 ∧ opt.maxChanges < queue.length

/-- The loop of `ll_diff_tree_paths` over the entries that are left. -/
def diffLoop (recurse : Recurse) (opt : DiffOptions) (base : List UInt8) :
    List TreeEntry → List TreeEntry → List (List UInt8) → Option (List (List UInt8))
  | [], [], queue => some queue
  | t :: ts, [], queue =>
    if tooMany opt queue then some queue
    else (emitPath recurse opt base (some t) none queue).bind (diffLoop recurse opt base ts [])
  | [], tp :: tps, queue =>
    if tooMany opt queue then some queue
    else (emitPath recurse opt base none (some tp) queue).bind (diffLoop recurse opt base [] tps)
  | t :: ts, tp :: tps, queue =>
    if tooMany opt queue then some queue
    else if baseNameCompare t.path t.mode tp.path tp.mode = 0 then
      if t.oid = tp.oid ∧ t.mode = tp.mode then diffLoop recurse opt base ts tps queue
      else (emitPath recurse opt base (some t) (some tp) queue).bind (diffLoop recurse opt base ts tps)
    else if baseNameCompare t.path t.mode tp.path tp.mode < 0 then
      (emitPath recurse opt base (some t) none queue).bind (diffLoop recurse opt base ts (tp :: tps))
    else
      (emitPath recurse opt base none (some tp) queue).bind (diffLoop recurse opt base (t :: ts) tps)

def llDiffTreePaths (s : ObjectStore) (opt : DiffOptions) : Nat → Recurse
  | 0, _, _, _, _ => none
  | levels + 1, oid, parentOid, base, queue =>
    (fillTreeDescriptor s parentOid).bind fun tp =>
      (fillTreeDescriptor s oid).bind fun t => diffLoop (llDiffTreePaths s opt levels) opt base t tp queue

def diffTreeOid (s : ObjectStore) (opt : DiffOptions) (oldOid : Option Oid) (newOid : Oid) :
    Option (List (List UInt8)) :=
  llDiffTreePaths s opt (opt.maxAllowedTreeDepth + 1) (some newOid) oldOid [] []

inductive Leaf (s : ObjectStore) : List TreeEntry → List UInt8 → Nat → Oid → Prop
  | file {es : List TreeEntry} {e : TreeEntry} (hmem : e ∈ es) (hfile : isDir e.mode = false) :
      Leaf s es e.path e.mode e.oid
  | inDir {es sub : List TreeEntry} {e : TreeEntry} {path : List UInt8} {mode : Nat} {oid : Oid} (hmem : e ∈ es)
      (hdir : isDir e.mode = true) (hread : s.readTree e.oid = some sub) (hleaf : Leaf s sub path mode oid) :
      Leaf s es (e.path ++ slash :: path) mode oid

def OnOneSide (s : ObjectStore) (es ps : List TreeEntry) (path : List UInt8) (mode : Nat) (oid : Oid) : Prop :=
  (Leaf s es path mode oid ∧ ¬ Leaf s ps path mode oid) ∨ (Leaf s ps path mode oid ∧ ¬ Leaf s es path mode oid)

def Considered (opt : DiffOptions) (path : List UInt8) (mode : Nat) : Prop :=
  ¬ (isGitlink mode = true ∧ opt.isSubmoduleIgnored path = true)

end GitCore.Bloom

/-!
# The diff finds every changed path

Unless the limit on changes stops it, the walk queues the path of every leaf that only one of the
trees has. Nothing is asked of the order of the entries.
-/

namespace GitCore.Bloom

open Index (slash)
open Trees (TreeEntry isDir baseNameCompare endByte)

section Names

variable {m₁ m₂ : Nat}

lemma endByte_nil_or (mode : Nat) : endByte [] mode = slash ∧ isDir mode = true ∨ endByte [] mode = 0 ∧ isDir mode = false := by
  rw [endByte]
  cases isDir mode
  · exact .inr ⟨rfl, rfl⟩
  · exact .inl ⟨rfl, rfl⟩

lemma endByte_cons {c : UInt8} {rest : List UInt8} (hzero : c ≠ 0) (mode : Nat) : endByte (c :: rest) mode = c := by
  rw [endByte, if_neg fun h => hzero h.1]

lemma endByte_ne {c : UInt8} {rest : List UInt8} (hzero : c ≠ 0) (hslash : c ≠ slash) (mode mode' : Nat) :
    endByte [] mode ≠ endByte (c :: rest) mode' := by
  rw [endByte_cons hzero]
  rcases endByte_nil_or mode with ⟨h, -⟩ | ⟨h, -⟩ <;> rw [h]
  · exact hslash.symm
  · exact hzero.symm

lemma endByte_eq {n₁ n₂ : List UInt8} (hnil : n₁ = [] ∨ n₂ = []) (h : baseNameCompare n₁ m₁ n₂ m₂ = 0) :
    endByte n₁ m₁ = endByte n₂ m₂ := by
  rw [baseNameCompare] at h
  · by_contra hne
    rcases lt_or_gt_of_ne hne with hlt | hlt
    · rw [if_pos hlt] at h
      cases h
    · rw [if_neg (lt_asymm hlt), if_pos hlt] at h
      cases h
  · rintro a name1 b name2 rfl rfl
    simp at hnil

lemma eq_of_baseNameCompare {n₁ n₂ : List UInt8} (h₁ : slash ∉ n₁ ∧ (0 : UInt8) ∉ n₁)
    (h₂ : slash ∉ n₂ ∧ (0 : UInt8) ∉ n₂) (h : baseNameCompare n₁ m₁ n₂ m₂ = 0) : n₁ = n₂ ∧ isDir m₁ = isDir m₂ := by
  induction n₁ generalizing n₂ with
  | nil =>
    have hend : endByte [] m₁ = endByte n₂ m₂ := endByte_eq (.inl rfl) h
    cases n₂ with
    | nil =>
      refine ⟨rfl, ?_⟩
      rcases endByte_nil_or m₁ with ⟨e₁, d₁⟩ | ⟨e₁, d₁⟩ <;> rcases endByte_nil_or m₂ with ⟨e₂, d₂⟩ | ⟨e₂, d₂⟩
      · rw [d₁, d₂]
      · rw [e₁, e₂] at hend
        cases hend
      · rw [e₁, e₂] at hend
        cases hend
      · rw [d₁, d₂]
    | cons c n₂ =>
      have hc : c ≠ 0 ∧ c ≠ slash := by
        constructor
        · rintro rfl
          exact h₂.2 List.mem_cons_self
        · rintro rfl
          exact h₂.1 List.mem_cons_self
      exact absurd hend (endByte_ne hc.1 hc.2 m₁ m₂)
  | cons a n₁ ih =>
    have ha : a ≠ 0 ∧ a ≠ slash := by
      constructor
      · rintro rfl
        exact h₁.2 List.mem_cons_self
      · rintro rfl
        exact h₁.1 List.mem_cons_self
    cases n₂ with
    | nil =>
      have hend : endByte (a :: n₁) m₁ = endByte [] m₂ := endByte_eq (.inr rfl) h
      exact absurd hend.symm (endByte_ne ha.1 ha.2 m₂ m₁)
    | cons c n₂ =>
      rw [baseNameCompare] at h
      by_cases hlt : a < c
      · rw [if_pos hlt] at h
        cases h
      by_cases hgt : c < a
      · rw [if_neg hlt, if_pos hgt] at h
        cases h
      rw [if_neg hlt, if_neg hgt] at h
      obtain rfl : a = c := le_antisymm (not_lt.mp hgt) (not_lt.mp hlt)
      obtain ⟨heq, hdir⟩ := ih ⟨fun hm => h₁.1 (List.mem_cons_of_mem _ hm), fun hm => h₁.2 (List.mem_cons_of_mem _ hm)⟩
        ⟨fun hm => h₂.1 (List.mem_cons_of_mem _ hm), fun hm => h₂.2 (List.mem_cons_of_mem _ hm)⟩ h
      exact ⟨by rw [heq], hdir⟩

end Names

section Walk

variable {s : ObjectStore} {opt : DiffOptions} {base : List UInt8}

lemma mem_queuePair {mode p0mode : Nat} {path : List UInt8} {queue : List (List UInt8)}
    (h : (mode ≠ 0 ∧ Considered opt path mode) ∨ (p0mode ≠ 0 ∧ Considered opt path p0mode)) :
    path ∈ queuePair opt mode p0mode path queue := by
  have hmem : path ∈ queue ++ [path] := by simp
  unfold queuePair
  by_cases hboth : mode ≠ 0 ∧ p0mode ≠ 0
  · rw [if_pos hboth, if_neg]
    · exact hmem
    · rintro ⟨hp0, hm, hignored⟩
      rcases h with ⟨-, h⟩ | ⟨-, h⟩
      · exact h ⟨hm, hignored⟩
      · exact h ⟨hp0, hignored⟩
  · rw [if_neg hboth]
    dsimp only
    by_cases hmode : mode ≠ 0
    · rw [if_pos hmode, if_neg]
      · exact hmem
      · rcases h with ⟨-, h⟩ | ⟨hp0, -⟩
        · exact h
        · exact absurd ⟨hmode, hp0⟩ hboth
    · rw [if_neg hmode, if_neg]
      · exact hmem
      · rcases h with ⟨hm, -⟩ | ⟨-, h⟩
        · exact absurd hm hmode
        · exact h

lemma prefix_queuePair (opt : DiffOptions) (mode p0mode : Nat) (path : List UInt8) (queue : List (List UInt8)) :
    queue <+: queuePair opt mode p0mode path queue := by
  have hsame : queue <+: queue := List.prefix_rfl
  have hmore : queue <+: queue ++ [path] := List.prefix_append _ _
  unfold queuePair
  split
  · split <;> assumption
  · dsimp only
    split <;> split <;> assumption

lemma tooMany_mono {queue queue' : List (List UInt8)} (h : queue <+: queue') (hmany : tooMany opt queue = true) :
    tooMany opt queue' = true := by
  have hle := h.length_le
  simp only [tooMany, decide_eq_true_eq] at hmany ⊢
  exact ⟨hmany.1, by omega⟩

/-- What a walk from `queue` to `queue'` over two lists of entries has done. -/
structure Walked (s : ObjectStore) (opt : DiffOptions) (base : List UInt8) (todo : List UInt8 → Nat → Oid → Prop)
    (queue queue' : List (List UInt8)) : Prop where
  kept : queue <+: queue'
  found : tooMany opt queue' = true ∨
    ∀ path mode oid, Considered opt (base ++ path) mode → todo path mode oid → base ++ path ∈ queue'

def GoodRecurse (s : ObjectStore) (opt : DiffOptions) (recurse : Recurse) : Prop :=
  ∀ oid parentOid base queue queue', recurse oid parentOid base queue = some queue' →
    ∃ es ps, fillTreeDescriptor s oid = some es ∧ fillTreeDescriptor s parentOid = some ps ∧
      Walked s opt base (OnOneSide s es ps) queue queue'

variable {e : TreeEntry}

lemma leaf_cons {es : List TreeEntry} {path : List UInt8} {mode : Nat} {oid : Oid} :
    Leaf s (e :: es) path mode oid ↔ Leaf s [e] path mode oid ∨ Leaf s es path mode oid := by
  constructor
  · rintro (⟨hmem, hfile⟩ | ⟨hmem, hdir, hread, hleaf⟩) <;> rcases List.mem_cons.mp hmem with rfl | hmem
    · exact .inl (.file List.mem_cons_self hfile)
    · exact .inr (.file hmem hfile)
    · exact .inl (.inDir List.mem_cons_self hdir hread hleaf)
    · exact .inr (.inDir hmem hdir hread hleaf)
  · rintro ((⟨hmem, hfile⟩ | ⟨hmem, hdir, hread, hleaf⟩) | (⟨hmem, hfile⟩ | ⟨hmem, hdir, hread, hleaf⟩))
    · exact .file (List.mem_append_left es hmem) hfile
    · exact .inDir (List.mem_append_left es hmem) hdir hread hleaf
    · exact .file (List.mem_cons_of_mem _ hmem) hfile
    · exact .inDir (List.mem_cons_of_mem _ hmem) hdir hread hleaf

lemma not_leaf_nil {path : List UInt8} {mode : Nat} {oid : Oid} : ¬ Leaf s [] path mode oid := by
  rintro (⟨hmem, -⟩ | ⟨hmem, -⟩) <;> exact absurd hmem List.not_mem_nil

lemma leaf_of_mem {es : List TreeEntry} {path : List UInt8} {mode : Nat} {oid : Oid} (hmem : e ∈ es)
    (h : Leaf s [e] path mode oid) : Leaf s es path mode oid := by
  obtain ⟨h₁, hfile⟩ | ⟨h₁, hdir, hread, hleaf⟩ := h <;> obtain rfl := List.mem_singleton.mp h₁
  · exact .file hmem hfile
  · exact .inDir hmem hdir hread hleaf

lemma leaf_dir_iff {t : Option TreeEntry} {name path : List UInt8} {es : List TreeEntry} {mode : Nat} {oid : Oid}
    (ht : ∀ e ∈ t, isDir e.mode = true ∧ e.path = name) (hread : fillTreeDescriptor s (t.map TreeEntry.oid) = some es) :
    Leaf s t.toList path mode oid ↔ ∃ below, path = name ++ slash :: below ∧ Leaf s es below mode oid := by
  cases t with
  | none =>
    obtain rfl : es = [] := (Option.some.inj hread).symm
    constructor
    · intro h
      exact absurd h not_leaf_nil
    · rintro ⟨below, -, h⟩
      exact absurd h not_leaf_nil
  | some e =>
    obtain ⟨hdir, rfl⟩ := ht e rfl
    constructor
    · rintro (⟨hmem, hfile⟩ | ⟨hmem, -, hread', hleaf⟩) <;> obtain rfl := List.mem_singleton.mp hmem
      · rw [hdir] at hfile
        cases hfile
      · obtain rfl : _ = es := Option.some.inj (hread'.symm.trans hread)
        exact ⟨_, rfl, hleaf⟩
    · rintro ⟨below, rfl, hleaf⟩
      exact .inDir List.mem_cons_self hdir hread hleaf

lemma leaf_file_iff {path : List UInt8} {mode : Nat} {oid : Oid} (hfile : isDir e.mode = false)
    (h : Leaf s [e] path mode oid) : path = e.path ∧ mode = e.mode := by
  obtain ⟨hmem, -⟩ | ⟨hmem, hdir, -⟩ := h <;> obtain rfl := List.mem_singleton.mp hmem
  · exact ⟨rfl, rfl⟩
  · rw [hfile] at hdir
    cases hdir

lemma Walked.refl {todo : List UInt8 → Nat → Oid → Prop} {queue : List (List UInt8)}
    (h : tooMany opt queue = true ∨ ∀ path mode oid, ¬ todo path mode oid) : Walked s opt base todo queue queue where
  kept := List.prefix_rfl
  found := h.imp_right fun h path mode oid _ htodo => absurd htodo (h path mode oid)

lemma Walked.trans {todo todo₁ todo₂ : List UInt8 → Nat → Oid → Prop} {queue queue₁ queue' : List (List UInt8)}
    (h₁ : Walked s opt base todo₁ queue queue₁) (h₂ : Walked s opt base todo₂ queue₁ queue')
    (htodo : ∀ path mode oid, todo path mode oid → todo₁ path mode oid ∨ todo₂ path mode oid) :
    Walked s opt base todo queue queue' where
  kept := h₁.kept.trans h₂.kept
  found := by
    rcases h₁.found with hmany | h₁found
    · exact .inl (tooMany_mono h₂.kept hmany)
    rcases h₂.found with hmany | h₂found
    · exact .inl hmany
    refine .inr fun path mode oid hconsidered h => ?_
    rcases htodo path mode oid h with h | h
    · exact h₂.kept.subset (h₁found path mode oid hconsidered h)
    · exact h₂found path mode oid hconsidered h

structure Paired (t tp : Option TreeEntry) (e : TreeEntry) : Prop where
  shown : t.or tp = some e
  left : ∀ e' ∈ t, e'.path = e.path ∧ isDir e'.mode = isDir e.mode ∧ e'.mode ≠ 0
  right : ∀ e' ∈ tp, e'.path = e.path ∧ isDir e'.mode = isDir e.mode ∧ e'.mode ≠ 0

lemma emitPath_walked {recurse : Recurse} (hrec : GoodRecurse s opt recurse) {t tp : Option TreeEntry} {e : TreeEntry}
    (hpair : Paired t tp e) {queue queue' : List (List UInt8)}
    (hemit : emitPath recurse opt base t tp queue = some queue') :
    Walked s opt base (OnOneSide s t.toList tp.toList) queue queue' := by
  rw [emitPath, hpair.shown] at hemit
  dsimp only at hemit
  by_cases hdir : isDir e.mode = true
  · rw [if_pos hdir] at hemit
    obtain ⟨es, ps, hes, hps, hkept, hfound⟩ := hrec _ _ _ _ _ hemit
    have hleft : ∀ e' ∈ t, isDir e'.mode = true ∧ e'.path = e.path := fun e' he' =>
      ⟨(hpair.left e' he').2.1.trans hdir, (hpair.left e' he').1⟩
    have hright : ∀ e' ∈ tp, isDir e'.mode = true ∧ e'.path = e.path := fun e' he' =>
      ⟨(hpair.right e' he').2.1.trans hdir, (hpair.right e' he').1⟩
    refine ⟨hkept, hfound.imp_right fun hfound path mode oid hconsidered hside => ?_⟩
    obtain ⟨below, rfl⟩ : ∃ below, path = e.path ++ slash :: below := by
      rcases hside with ⟨h, -⟩ | ⟨h, -⟩
      · exact ((leaf_dir_iff hleft hes).mp h).imp fun _ h => h.1
      · exact ((leaf_dir_iff hright hps).mp h).imp fun _ h => h.1
    have hcut : ∀ {t : Option TreeEntry} {es : List TreeEntry}, (∀ e' ∈ t, isDir e'.mode = true ∧ e'.path = e.path) →
        fillTreeDescriptor s (t.map TreeEntry.oid) = some es →
        (Leaf s t.toList (e.path ++ slash :: below) mode oid ↔ Leaf s es below mode oid) := by
      intro t es ht hes
      rw [leaf_dir_iff ht hes]
      constructor
      · rintro ⟨below', heq, h⟩
        rw [List.append_cancel_left_eq, List.cons.injEq] at heq
        rwa [heq.2]
      · exact fun h => ⟨below, rfl, h⟩
    have hwhole : base ++ e.path ++ [slash] ++ below = base ++ (e.path ++ slash :: below) := by simp
    rw [OnOneSide, hcut hleft hes, hcut hright hps] at hside
    rw [← hwhole] at hconsidered ⊢
    exact hfound below mode oid hconsidered hside
  · rw [if_neg hdir] at hemit
    have hfile : isDir e.mode = false := by simpa using hdir
    obtain rfl := Option.some.inj hemit
    refine ⟨prefix_queuePair _ _ _ _ _, .inr fun path mode oid hconsidered hside => ?_⟩
    rcases hside with ⟨h, -⟩ | ⟨h, -⟩
    · cases t with
      | none => exact absurd h not_leaf_nil
      | some e' =>
        obtain ⟨hpath, hdir', hmode⟩ := hpair.left e' rfl
        obtain ⟨rfl, rfl⟩ := leaf_file_iff (hdir'.trans hfile) h
        rw [hpath] at hconsidered ⊢
        exact mem_queuePair (.inl ⟨hmode, hconsidered⟩)
    · cases tp with
      | none => exact absurd h not_leaf_nil
      | some e' =>
        obtain ⟨hpath, hdir', hmode⟩ := hpair.right e' rfl
        obtain ⟨rfl, rfl⟩ := leaf_file_iff (hdir'.trans hfile) h
        rw [hpath] at hconsidered ⊢
        exact mem_queuePair (.inr ⟨hmode, hconsidered⟩)

def LeftOver (s : ObjectStore) (es ps t tp : List TreeEntry) (path : List UInt8) (mode : Nat) (oid : Oid) : Prop :=
  (Leaf s t path mode oid ∧ ¬ Leaf s ps path mode oid) ∨ (Leaf s tp path mode oid ∧ ¬ Leaf s es path mode oid)

section Loop

variable {recurse : Recurse} {es ps t tp : List TreeEntry} {queue queue' : List (List UInt8)}

lemma walked_left (hrec : GoodRecurse s opt recurse) {e : TreeEntry} (hmode : e.mode ≠ 0)
    (hemit : emitPath recurse opt base (some e) none queue = some queue') :
    Walked s opt base (OnOneSide s [e] []) queue queue' := by
  refine @emitPath_walked s opt base recurse hrec (some e) none e ⟨rfl, ?_, ?_⟩ queue queue' hemit
  · rintro e' he'
    obtain rfl := Option.some.inj he'
    exact ⟨rfl, rfl, hmode⟩
  · rintro e' he'
    cases he'

lemma walked_right (hrec : GoodRecurse s opt recurse) {e : TreeEntry} (hmode : e.mode ≠ 0)
    (hemit : emitPath recurse opt base none (some e) queue = some queue') :
    Walked s opt base (OnOneSide s [] [e]) queue queue' := by
  refine @emitPath_walked s opt base recurse hrec none (some e) e ⟨rfl, ?_, ?_⟩ queue queue' hemit
  · rintro e' he'
    cases he'
  · rintro e' he'
    obtain rfl := Option.some.inj he'
    exact ⟨rfl, rfl, hmode⟩

lemma leftOver_left {path : List UInt8} {mode : Nat} {oid : Oid}
    (h : LeftOver s es ps (e :: t) tp path mode oid) :
    OnOneSide s [e] [] path mode oid ∨ LeftOver s es ps t tp path mode oid := by
  rcases h with ⟨h, hnot⟩ | h
  · rcases leaf_cons.mp h with h | h
    · exact .inl (.inl ⟨h, not_leaf_nil⟩)
    · exact .inr (.inl ⟨h, hnot⟩)
  · exact .inr (.inr h)

lemma leftOver_right {path : List UInt8} {mode : Nat} {oid : Oid}
    (h : LeftOver s es ps t (e :: tp) path mode oid) :
    OnOneSide s [] [e] path mode oid ∨ LeftOver s es ps t tp path mode oid := by
  rcases h with h | ⟨h, hnot⟩
  · exact .inr (.inl h)
  · rcases leaf_cons.mp h with h | h
    · exact .inl (.inr ⟨h, not_leaf_nil⟩)
    · exact .inr (.inr ⟨h, hnot⟩)

lemma leftOver_both {e f : TreeEntry} (he : e ∈ es) (hf : f ∈ ps) {path : List UInt8} {mode : Nat} {oid : Oid}
    (h : LeftOver s es ps (e :: t) (f :: tp) path mode oid) :
    OnOneSide s [e] [f] path mode oid ∨ LeftOver s es ps t tp path mode oid := by
  rcases h with ⟨h, hnot⟩ | ⟨h, hnot⟩ <;> rcases leaf_cons.mp h with h | h
  · exact .inl (.inl ⟨h, fun h' => hnot (leaf_of_mem hf h')⟩)
  · exact .inr (.inl ⟨h, hnot⟩)
  · exact .inl (.inr ⟨h, fun h' => hnot (leaf_of_mem he h')⟩)
  · exact .inr (.inr ⟨h, hnot⟩)

def GoodEntries (es : List TreeEntry) : Prop :=
  ∀ e ∈ es, slash ∉ e.path ∧ (0 : UInt8) ∉ e.path ∧ e.mode ≠ 0

lemma goodEntries_of_fill {oid : Option Oid} (h : fillTreeDescriptor s oid = some es) : GoodEntries es := by
  intro e he
  cases oid with
  | none =>
    obtain rfl := Option.some.inj h
    cases he
  | some oid => exact ⟨(s.name_ok h he).2.1, (s.name_ok h he).2.2, s.mode_ne h he⟩

lemma diffLoop_walked (hrec : GoodRecurse s opt recurse) (hes : GoodEntries es) (hps : GoodEntries ps)
    (ht : t ⊆ es) (htp : tp ⊆ ps) (hloop : diffLoop recurse opt base t tp queue = some queue') :
    Walked s opt base (LeftOver s es ps t tp) queue queue' := by
  induction t, tp, queue using diffLoop.induct opt generalizing queue' with
  | case1 queue =>
    rw [diffLoop] at hloop
    obtain rfl := Option.some.inj hloop
    refine .refl (.inr ?_)
    rintro path mode oid (⟨h, -⟩ | ⟨h, -⟩) <;> exact not_leaf_nil h
  | case2 t ts queue hmany =>
    rw [diffLoop, if_pos hmany] at hloop
    obtain rfl := Option.some.inj hloop
    exact .refl (.inl hmany)
  | case3 t ts queue hmany ih =>
    rw [diffLoop, if_neg hmany] at hloop
    obtain ⟨queue₁, hemit, hrest⟩ := Option.bind_eq_some_iff.mp hloop
    exact (walked_left hrec (hes t (ht List.mem_cons_self)).2.2 hemit).trans
      (ih queue₁ (List.subset_of_cons_subset ht) htp hrest) fun _ _ _ => leftOver_left
  | case4 tp tps queue hmany =>
    rw [diffLoop, if_pos hmany] at hloop
    obtain rfl := Option.some.inj hloop
    exact .refl (.inl hmany)
  | case5 tp tps queue hmany ih =>
    rw [diffLoop, if_neg hmany] at hloop
    obtain ⟨queue₁, hemit, hrest⟩ := Option.bind_eq_some_iff.mp hloop
    exact (walked_right hrec (hps tp (htp List.mem_cons_self)).2.2 hemit).trans
      (ih queue₁ ht (List.subset_of_cons_subset htp) hrest) fun _ _ _ => leftOver_right
  | case6 t ts tp tps queue hmany =>
    rw [diffLoop, if_pos hmany] at hloop
    obtain rfl := Option.some.inj hloop
    exact .refl (.inl hmany)
  | case7 t ts tp tps queue hmany hcmp heq ih =>
    rw [diffLoop, if_neg hmany, if_pos hcmp, if_pos heq] at hloop
    have hgood := hes t (ht List.mem_cons_self)
    have hgood' := hps tp (htp List.mem_cons_self)
    obtain ⟨hpath, -⟩ := eq_of_baseNameCompare ⟨hgood.1, hgood.2.1⟩ ⟨hgood'.1, hgood'.2.1⟩ hcmp
    obtain rfl : t = tp := by
      cases t
      cases tp
      simp only [TreeEntry.mk.injEq]
      exact ⟨hpath, heq.2, heq.1⟩
    -- The same entry stands in both trees, so no leaf below it is on one side only.
    have hsame : Walked s opt base (OnOneSide s [t] [t]) queue queue := by
      refine .refl (.inr ?_)
      rintro path mode oid (⟨h, hnot⟩ | ⟨h, hnot⟩) <;> exact hnot h
    exact hsame.trans (ih (List.subset_of_cons_subset ht) (List.subset_of_cons_subset htp) hloop)
      fun _ _ _ => leftOver_both (ht List.mem_cons_self) (htp List.mem_cons_self)
  | case8 t ts tp tps queue hmany hcmp hne ih =>
    rw [diffLoop, if_neg hmany, if_pos hcmp, if_neg hne] at hloop
    have hgood := hes t (ht List.mem_cons_self)
    have hgood' := hps tp (htp List.mem_cons_self)
    obtain ⟨hpath, hdir⟩ := eq_of_baseNameCompare ⟨hgood.1, hgood.2.1⟩ ⟨hgood'.1, hgood'.2.1⟩ hcmp
    have hpair : Paired (some t) (some tp) t := by
      refine ⟨rfl, ?_, ?_⟩
      · rintro e' he'
        obtain rfl := Option.some.inj he'
        exact ⟨rfl, rfl, hgood.2.2⟩
      · rintro e' he'
        obtain rfl := Option.some.inj he'
        exact ⟨hpath.symm, hdir.symm, hgood'.2.2⟩
    obtain ⟨queue₁, hemit, hrest⟩ := Option.bind_eq_some_iff.mp hloop
    exact (emitPath_walked hrec hpair hemit).trans
      (ih queue₁ (List.subset_of_cons_subset ht) (List.subset_of_cons_subset htp) hrest)
      fun _ _ _ => leftOver_both (ht List.mem_cons_self) (htp List.mem_cons_self)
  | case9 t ts tp tps queue hmany hcmp hlt ih =>
    rw [diffLoop, if_neg hmany, if_neg hcmp, if_pos hlt] at hloop
    obtain ⟨queue₁, hemit, hrest⟩ := Option.bind_eq_some_iff.mp hloop
    exact (walked_left hrec (hes t (ht List.mem_cons_self)).2.2 hemit).trans
      (ih queue₁ (List.subset_of_cons_subset ht) htp hrest) fun _ _ _ => leftOver_left
  | case10 t ts tp tps queue hmany hcmp hlt ih =>
    rw [diffLoop, if_neg hmany, if_neg hcmp, if_neg hlt] at hloop
    obtain ⟨queue₁, hemit, hrest⟩ := Option.bind_eq_some_iff.mp hloop
    exact (walked_right hrec (hps tp (htp List.mem_cons_self)).2.2 hemit).trans
      (ih queue₁ ht (List.subset_of_cons_subset htp) hrest) fun _ _ _ => leftOver_right

end Loop

lemma goodRecurse_llDiffTreePaths (s : ObjectStore) (opt : DiffOptions) (levels : Nat) :
    GoodRecurse s opt (llDiffTreePaths s opt levels) := by
  induction levels with
  | zero =>
    intro oid parentOid base queue queue' h
    cases h
  | succ levels ih =>
    intro oid parentOid base queue queue' h
    rw [llDiffTreePaths] at h
    obtain ⟨ps, hps, h⟩ := Option.bind_eq_some_iff.mp h
    obtain ⟨es, hes, h⟩ := Option.bind_eq_some_iff.mp h
    exact ⟨es, ps, hes, hps, diffLoop_walked ih (goodEntries_of_fill hes) (goodEntries_of_fill hps)
      (List.Subset.refl es) (List.Subset.refl ps) h⟩

theorem diffTreeOid_found {oldOid : Option Oid} {newOid : Oid} {queue : List (List UInt8)}
    (h : diffTreeOid s opt oldOid newOid = some queue) :
    ∃ es ps, s.readTree newOid = some es ∧ fillTreeDescriptor s oldOid = some ps ∧
      (tooMany opt queue = true ∨ ∀ path mode oid, Considered opt path mode → OnOneSide s es ps path mode oid →
        path ∈ queue) := by
  obtain ⟨es, ps, hes, hps, hwalked⟩ := goodRecurse_llDiffTreePaths s opt _ _ _ _ _ _ h
  exact ⟨es, ps, hes, hps, hwalked.found⟩

end Walk

end GitCore.Bloom
