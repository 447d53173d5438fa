import GitCore.Lib.Probing

/-!
# The table of objects in memory

`lookup_object` and `create_object` of `object.c` with the hash table of `struct parsed_object_pool`. The table is a
list of slots, and `obj_hash == NULL` is the empty list. `oidhash` reads a word of the id in the byte order of the
machine, so it stands for any function.
-/

namespace GitCore.Objects

variable {Oid Ptr : Type}

structure Object (Oid Ptr : Type) where
  oid : Oid
  ptr : Ptr
  deriving DecidableEq

/-- The fields `obj_hash` and `nr_objs` of `struct parsed_object_pool`; `obj_hash_size` is the number of the slots. -/
structure ParsedObjectPool (Oid Ptr : Type) where
  objHash : List (Option (Object Oid Ptr))
  nrObjs : Nat

def ParsedObjectPool.objHashSize (pool : ParsedObjectPool Oid Ptr) : Nat := pool.objHash.length

def parsedObjectPoolNew : ParsedObjectPool Oid Ptr where
  objHash := []
  nrObjs := 0

variable (oidhash : Oid → Nat)

def hashObj (oid : Oid) (n : Nat) : Nat := oidhash oid &&& (n - 1)

/-- `insert_obj_hash`, which fails if the loop does not end within one round of the table. -/
def insertObjHash (obj : Object Oid Ptr) (hash : List (Option (Object Oid Ptr))) :
    Option (List (Option (Object Oid Ptr))) := do
  let j ← runFor
    (probeStep (fun j => if (hash.getD j none).isSome then none else some j)
      (fun j => if hash.length ≤ j + 1 then 0 else j + 1))
    hash.length (hashObj oidhash obj.oid hash.length)
  return hash.set j (some obj)

/-- A round of the loop in `grow_object_hash`. -/
def copySlot (hash : List (Option (Object Oid Ptr))) : Option (Object Oid Ptr) → Option (List (Option (Object Oid Ptr)))
  | none => some hash
  | some obj => insertObjHash oidhash obj hash

def growObjectHash (pool : ParsedObjectPool Oid Ptr) : Option (ParsedObjectPool Oid Ptr) := do
  let newHashSize := if pool.objHashSize < 32 then 32 else 2 * pool.objHashSize
  let newHash ← pool.objHash.foldlM (copySlot oidhash) (List.replicate newHashSize none)
  return { pool with objHash := newHash }

/-- The check of the size in `create_object`. The size of an empty table less one is negative. -/
def makeRoom (pool : ParsedObjectPool Oid Ptr) : Option (ParsedObjectPool Oid Ptr) :=
  if (pool.objHashSize : Int) - 1 ≤ pool.nrObjs * 2 then growObjectHash oidhash pool else some pool

def createObject (pool : ParsedObjectPool Oid Ptr) (oid : Oid) (ptr : Ptr) :
    Option (ParsedObjectPool Oid Ptr × Object Oid Ptr) := do
  let obj : Object Oid Ptr := ⟨oid, ptr⟩
  let pool ← makeRoom oidhash pool
  let hash ← insertObjHash oidhash obj pool.objHash
  return (⟨hash, pool.nrObjs + 1⟩, obj)

variable [DecidableEq Oid]

/-- Where the search for an id ends: at a slot that is free or has the object, with its content. -/
def lookupStop (hash : List (Option (Object Oid Ptr))) (oid : Oid) (i : Nat) : Option (Nat × Option (Object Oid Ptr)) :=
  match hash.getD i none with
  | none => some (i, none)
  | some obj => if oid = obj.oid then some (i, some obj) else none

/-- The end of `lookup_object`: an object that was found is moved to where the search started. -/
def moveToFirst (pool : ParsedObjectPool Oid Ptr) (first : Nat) (found : Nat × Option (Object Oid Ptr)) :
    ParsedObjectPool Oid Ptr :=
  if found.2.isSome ∧ found.1 ≠ first then
    { pool with objHash := (pool.objHash.set found.1 (pool.objHash.getD first none)).set first found.2 }
  else pool

/-- `lookup_object`: it fails if the loop does not end within one round of the table. -/
def lookupObject (pool : ParsedObjectPool Oid Ptr) (oid : Oid) :
    Option (ParsedObjectPool Oid Ptr × Option (Object Oid Ptr)) :=
  if pool.objHash = [] then some (pool, none)
  else do
    let first := hashObj oidhash oid pool.objHashSize
    let found ← runFor
      (probeStep (lookupStop pool.objHash oid) (fun i => if i + 1 = pool.objHashSize then 0 else i + 1))
      pool.objHashSize first
    return (moveToFirst pool first found, found.2)

inductive PoolOp (Oid Ptr : Type)
  | lookup (oid : Oid)
  | create (oid : Oid) (ptr : Ptr)

def runPoolOp (pool : ParsedObjectPool Oid Ptr) :
    PoolOp Oid Ptr → Option (ParsedObjectPool Oid Ptr × Option (Object Oid Ptr))
  | .lookup oid => lookupObject oidhash pool oid
  | .create oid ptr => (createObject oidhash pool oid ptr).map fun result => (result.1, some result.2)

def runPoolOps (pool : ParsedObjectPool Oid Ptr) :
    List (PoolOp Oid Ptr) → Option (ParsedObjectPool Oid Ptr × List (Option (Object Oid Ptr)))
  | [] => some (pool, [])
  | op :: ops => do
    let (pool, result) ← runPoolOp oidhash pool op
    let (pool, results) ← runPoolOps pool ops
    return (pool, result :: results)

def mapOp (objects : Oid → Option (Object Oid Ptr)) :
    PoolOp Oid Ptr → (Oid → Option (Object Oid Ptr)) × Option (Object Oid Ptr)
  | .lookup oid => (objects, objects oid)
  | .create oid ptr => (Function.update objects oid (some ⟨oid, ptr⟩), some ⟨oid, ptr⟩)

def mapOps (objects : Oid → Option (Object Oid Ptr)) :
    List (PoolOp Oid Ptr) → (Oid → Option (Object Oid Ptr)) × List (Option (Object Oid Ptr))
  | [] => (objects, [])
  | op :: ops =>
    let next := mapOp objects op
    let rest := mapOps next.1 ops
    (rest.1, next.2 :: rest.2)

def createdOids : List (PoolOp Oid Ptr) → List Oid
  | [] => []
  | .lookup _ :: ops => createdOids ops
  | .create oid _ :: ops => oid :: createdOids ops

end GitCore.Objects

/-!
# The table of objects is a map

Every object stands behind the home of its id with no free slot between them, and at least half of the slots are
free. Moving an object to its home keeps this, since the slots between the home and the old place stay occupied.
-/

namespace GitCore.Objects

variable {Oid Ptr : Type} {oidhash : Oid → Nat} {pool : ParsedObjectPool Oid Ptr} {obj : Object Oid Ptr}
  {hash : List (Option (Object Oid Ptr))}

def homeOf (oidhash : Oid → Nat) (n : Nat) (obj : Object Oid Ptr) : Nat := hashObj oidhash obj.oid n

lemma hashObj_lt (oid : Oid) {n : Nat} (hn : 0 < n) : hashObj oidhash oid n < n :=
  Nat.and_le_right.trans_lt (Nat.sub_lt hn one_pos)

lemma wrap_insert {n : Nat} : ∀ j < n, (if n ≤ j + 1 then 0 else j + 1) = (j + 1) % n := by
  intro j hj
  split_ifs with h
  · rw [show j + 1 = n by omega, Nat.mod_self]
  · rw [Nat.mod_eq_of_lt (by omega)]

lemma wrap_lookup {n : Nat} : ∀ j < n, (if j + 1 = n then 0 else j + 1) = (j + 1) % n := by
  intro j hj
  split_ifs with h
  · rw [h, Nat.mod_self]
  · rw [Nat.mod_eq_of_lt (by omega)]

structure IsTable (oidhash : Oid → Nat) (hash : List (Option (Object Oid Ptr))) (objs : List (Object Oid Ptr)) :
    Prop where
  probed : Probed (homeOf oidhash hash.length) hash
  perm : (hash.filterMap id).Perm objs

lemma isTable_replicate (n : Nat) : IsTable oidhash (List.replicate n (none : Option (Object Oid Ptr))) [] where
  probed i a h := by
    rw [List.getElem?_replicate] at h
    split_ifs at h
    cases h
  perm := by rw [List.filterMap_replicate_of_none rfl]

lemma insertObjHash_spec {objs : List (Object Oid Ptr)} (h : IsTable oidhash hash objs) (hfree : objs.length < hash.length)
    (obj : Object Oid Ptr) :
    ∃ hash', insertObjHash oidhash obj hash = some hash' ∧ hash'.length = hash.length ∧
      IsTable oidhash hash' (obj :: objs) := by
  have hn : 0 < hash.length := Nat.zero_lt_of_lt hfree
  have hstop : ∃ i < hash.length, (if (hash.getD i none).isSome then none else some i : Option Nat).isSome := by
    obtain ⟨i, hi⟩ := exists_free (h.perm.length_eq.trans_lt hfree)
    refine ⟨i, (List.getElem?_eq_some_iff.mp hi).1, ?_⟩
    rw [getD_of_getElem? hi]
    rfl
  obtain ⟨m, hm, j, hgo, hj, hrun⟩ := exists_probe wrap_insert (hashObj_lt obj.oid hn) hstop
  split_ifs at hj with hnone
  obtain rfl : (hashObj oidhash obj.oid hash.length + m) % hash.length = j := Option.some.inj hj
  generalize hj' : (hashObj oidhash obj.oid hash.length + m) % hash.length = j at hrun hnone
  have hslot : hash[j]? = some none := by
    have hlt : j < hash.length := hj' ▸ Nat.mod_lt _ hn
    rw [List.getD_eq_getElem?_getD, List.getElem?_eq_getElem hlt, Option.getD_some, Option.not_isSome_iff_eq_none]
      at hnone
    rw [List.getElem?_eq_getElem hlt, hnone]
  have hreached : Reached hash (homeOf oidhash hash.length obj) j := by
    refine ⟨m, hj', fun k hk => ?_⟩
    have hk' := hgo k hk
    by_contra hno
    rw [homeOf] at hno
    rw [if_neg hno] at hk'
    cases hk'
  refine ⟨hash.set j (some obj), ?_, List.length_set, ?_, ?_⟩
  · rw [insertObjHash, hrun hash.length hm]
    rfl
  · rw [List.length_set]
    exact h.probed.insert hreached
  · exact (filterMap_set_perm hslot obj).trans (h.perm.cons obj)

lemma copy_spec (slots : List (Option (Object Oid Ptr))) {objs : List (Object Oid Ptr)} (h : IsTable oidhash hash objs)
    (hroom : (slots.filterMap id).length + objs.length < hash.length) :
    ∃ hash', slots.foldlM (copySlot oidhash) hash = some hash' ∧ hash'.length = hash.length ∧
      IsTable oidhash hash' (slots.filterMap id ++ objs) := by
  induction slots generalizing hash objs with
  | nil => exact ⟨hash, rfl, rfl, h⟩
  | cons slot slots ih =>
    cases slot with
    | none => exact ih h hroom
    | some obj =>
      rw [List.filterMap_cons_some (by rfl), List.length_cons] at hroom
      obtain ⟨hash₁, hinsert, hlength₁, htable₁⟩ := insertObjHash_spec h (by omega) obj
      obtain ⟨hash', hfold, hlength', htable'⟩ := ih htable₁ (by rw [List.length_cons, hlength₁]; omega)
      refine ⟨hash', ?_, hlength'.trans hlength₁, htable'.probed, htable'.perm.trans ?_⟩
      · rw [List.foldlM_cons, copySlot, hinsert]
        exact hfold
      · rw [List.filterMap_cons_some (by rfl)]
        exact List.perm_middle

structure PoolInv (oidhash : Oid → Nat) (pool : ParsedObjectPool Oid Ptr) (objects : Oid → Option (Object Oid Ptr)) :
    Prop where
  table : ∃ objs, IsTable oidhash pool.objHash objs ∧ objs.length = pool.nrObjs ∧
    ∀ obj, obj ∈ objs ↔ objects obj.oid = some obj
  load : 2 * pool.nrObjs ≤ pool.objHashSize
  named : ∀ oid obj, objects oid = some obj → obj.oid = oid

lemma poolInv_new : PoolInv oidhash (parsedObjectPoolNew : ParsedObjectPool Oid Ptr) (fun _ => none) where
  table := ⟨[], ⟨by simp [Probed, parsedObjectPoolNew], .nil⟩, rfl, by simp⟩
  load := le_rfl
  named := by simp

lemma growObjectHash_spec {objs : List (Object Oid Ptr)} (h : IsTable oidhash pool.objHash objs)
    (hload : 2 * objs.length ≤ pool.objHashSize) :
    ∃ pool', growObjectHash oidhash pool = some pool' ∧ pool'.nrObjs = pool.nrObjs ∧
      IsTable oidhash pool'.objHash objs ∧ 2 * objs.length + 2 ≤ pool'.objHashSize := by
  have hlength := h.perm.length_eq
  obtain ⟨hash', hfold, hlength', htable⟩ := copy_spec pool.objHash
    (@isTable_replicate _ _ oidhash (if pool.objHashSize < 32 then 32 else 2 * pool.objHashSize)) (by
      rw [List.length_replicate, List.length_nil, Nat.add_zero, hlength]
      split_ifs <;> omega)
  refine ⟨{ pool with objHash := hash' }, ?_, rfl, ⟨htable.probed, ?_⟩, ?_⟩
  · rw [growObjectHash, hfold]
    rfl
  · rw [List.append_nil] at htable
    exact htable.perm.trans h.perm
  · rw [ParsedObjectPool.objHashSize, hlength', List.length_replicate]
    split_ifs <;> omega

section Calls

variable {objects : Oid → Option (Object Oid Ptr)}

lemma PoolInv.room (h : PoolInv oidhash pool objects) :
    ∃ pool' objs, makeRoom oidhash pool = some pool' ∧ IsTable oidhash pool'.objHash objs ∧
      objs.length = pool'.nrObjs ∧ (∀ obj, obj ∈ objs ↔ objects obj.oid = some obj) ∧
      2 * pool'.nrObjs + 2 ≤ pool'.objHashSize := by
  obtain ⟨objs, htable, hcount, hmem⟩ := h.table
  rw [makeRoom]
  split_ifs with hgrow
  · obtain ⟨pool', hgrown, hnr, htable', hload⟩ := growObjectHash_spec htable (hcount ▸ h.load)
    exact ⟨pool', objs, hgrown, htable', hcount.trans hnr.symm, hmem, by rwa [hnr, ← hcount]⟩
  · exact ⟨pool, objs, rfl, htable, hcount, hmem, by omega⟩

lemma PoolInv.exists_way (h : PoolInv oidhash pool objects) {oid : Oid} (hobj : objects oid = some obj) :
    ∃ d, pool.objHash.getD ((hashObj oidhash oid pool.objHashSize + d) % pool.objHashSize) none = some obj ∧
      ∀ k < d, (pool.objHash.getD ((hashObj oidhash oid pool.objHashSize + k) % pool.objHashSize) none).isSome := by
  obtain ⟨objs, htable, -, hmem⟩ := h.table
  obtain rfl := h.named oid obj hobj
  obtain ⟨i, hi⟩ := mem_filterMap_iff.mp (htable.perm.mem_iff.mpr ((hmem obj).mpr hobj))
  obtain ⟨d, hd, hbetween⟩ := htable.probed i obj hi
  exact ⟨d, (congrArg (pool.objHash.getD · none) hd).trans (getD_of_getElem? hi), hbetween⟩

lemma createdOids_cons (op : PoolOp Oid Ptr) (ops : List (PoolOp Oid Ptr)) :
    createdOids (op :: ops) = createdOids [op] ++ createdOids ops := by
  cases op <;> rfl

variable [DecidableEq Oid]

lemma createObject_spec (h : PoolInv oidhash pool objects) {oid : Oid} (hnew : objects oid = none) (ptr : Ptr) :
    ∃ pool', createObject oidhash pool oid ptr = some (pool', ⟨oid, ptr⟩) ∧
      PoolInv oidhash pool' (Function.update objects oid (some ⟨oid, ptr⟩)) := by
  obtain ⟨pool₁, objs, hroom, htable, hcount, hmem, hload⟩ := h.room
  obtain ⟨hash', hinsert, hlength, htable'⟩ :=
    insertObjHash_spec htable (by rw [ParsedObjectPool.objHashSize] at hload; omega) ⟨oid, ptr⟩
  refine ⟨⟨hash', pool₁.nrObjs + 1⟩, ?_, ⟨⟨oid, ptr⟩ :: objs, htable', by rw [List.length_cons, hcount], ?_⟩, ?_, ?_⟩
  · rw [createObject, hroom]
    dsimp only [Option.bind_eq_bind, Option.bind_some]
    rw [hinsert]
    rfl
  · intro obj
    rw [List.mem_cons, hmem]
    by_cases hoid : obj.oid = oid
    · rw [hoid, Function.update_self, hnew, Option.some_inj, eq_comm]
      simp
    · rw [Function.update_of_ne hoid]
      exact or_iff_right fun heq => hoid (by rw [heq])
  · rw [ParsedObjectPool.objHashSize, hlength]
    rw [ParsedObjectPool.objHashSize] at hload
    dsimp only
    omega
  · intro other obj hobj
    by_cases hother : other = oid
    · subst hother
      rw [Function.update_self] at hobj
      rw [← Option.some.inj hobj]
    · rw [Function.update_of_ne hother] at hobj
      exact h.named other obj hobj

lemma isSome_of_lookupStop {oid : Oid} {i : Nat} (h : lookupStop hash oid i = none) : (hash.getD i none).isSome := by
  rw [lookupStop] at h
  cases hslot : hash.getD i none with
  | none =>
    rw [hslot] at h
    cases h
  | some obj => rfl

lemma lookupStop_eq_some {oid : Oid} {i : Nat} {found : Nat × Option (Object Oid Ptr)}
    (h : lookupStop hash oid i = some found) : found = (i, hash.getD i none) ∧ ∀ obj ∈ found.2, obj.oid = oid := by
  rw [lookupStop] at h
  cases hslot : hash.getD i none with
  | none =>
    rw [hslot] at h
    cases h
    exact ⟨rfl, by simp⟩
  | some obj =>
    rw [hslot] at h
    dsimp only at h
    split_ifs at h with hoid
    cases h
    exact ⟨rfl, fun other hother => by rw [← Option.some.inj hother, hoid]⟩

lemma PoolInv.found_eq (h : PoolInv oidhash pool objects) {oid : Oid} {m : Nat} {found : Nat × Option (Object Oid Ptr)}
    (hgo : ∀ k < m, lookupStop pool.objHash oid
      ((hashObj oidhash oid pool.objHashSize + k) % pool.objHashSize) = none)
    (hfound : lookupStop pool.objHash oid ((hashObj oidhash oid pool.objHashSize + m) % pool.objHashSize) = some found) :
    found.2 = objects oid := by
  obtain ⟨heq, hoid⟩ := lookupStop_eq_some hfound
  cases hresult : found.2 with
  | none =>
    cases hobj : objects oid with
    | none => rfl
    | some obj =>
      obtain ⟨d, hslot, hway⟩ := h.exists_way hobj
      have hempty : pool.objHash.getD ((hashObj oidhash oid pool.objHashSize + m) % pool.objHashSize) none = none := by
        rw [heq] at hresult
        exact hresult
      obtain hlt | rfl | hgt := lt_trichotomy m d
      · have hsome := hway m hlt
        rw [hempty] at hsome
        cases hsome
      · rw [hempty] at hslot
        cases hslot
      · have hstop := hgo d hgt
        rw [lookupStop, hslot] at hstop
        dsimp only at hstop
        rw [if_pos (h.named oid obj hobj).symm] at hstop
        cases hstop
  | some obj =>
    obtain ⟨objs, htable, -, hmem⟩ := h.table
    have hslot : pool.objHash.getD ((hashObj oidhash oid pool.objHashSize + m) % pool.objHashSize) none = some obj := by
      rw [heq] at hresult
      exact hresult
    have hin : obj ∈ objs := by
      refine htable.perm.mem_iff.mp (mem_filterMap_iff.mpr ⟨_, getElem?_of_getD hslot⟩)
    rw [← (hmem obj).mp hin, hoid obj hresult]

lemma PoolInv.moveToFirst (h : PoolInv oidhash pool objects) (hn : 0 < pool.objHashSize) {oid : Oid} {m : Nat}
    {found : Nat × Option (Object Oid Ptr)}
    (hgo : ∀ k < m, lookupStop pool.objHash oid
      ((hashObj oidhash oid pool.objHashSize + k) % pool.objHashSize) = none)
    (hfound : lookupStop pool.objHash oid ((hashObj oidhash oid pool.objHashSize + m) % pool.objHashSize) = some found) :
    PoolInv oidhash (moveToFirst pool (hashObj oidhash oid pool.objHashSize) found) objects := by
  obtain ⟨heq, hoid⟩ := lookupStop_eq_some hfound
  rw [Objects.moveToFirst]
  split_ifs with hmoved
  swap
  · exact h
  obtain ⟨hsome, hne⟩ := hmoved
  obtain ⟨obj, hobj⟩ := Option.isSome_iff_exists.mp hsome
  have hslot : pool.objHash[found.1]? = some (some obj) := getElem?_of_getD (by rw [heq] at hobj ⊢; exact hobj)
  have hpos : 0 < m := by
    by_contra hzero
    obtain rfl : m = 0 := by omega
    rw [heq, Nat.add_zero, Nat.mod_eq_of_lt (hashObj_lt oid hn)] at hne
    exact hne rfl
  obtain ⟨other, hother⟩ := Option.isSome_iff_exists.mp (isSome_of_lookupStop (hgo 0 hpos))
  rw [Nat.add_zero, Nat.mod_eq_of_lt (hashObj_lt oid hn)] at hother
  have hfirst := getElem?_of_getD hother
  have hreached : Reached pool.objHash (hashObj oidhash oid pool.objHashSize) found.1 :=
    ⟨m, by rw [heq]; rfl, fun k hk => isSome_of_lookupStop (hgo k hk)⟩
  obtain ⟨objs, htable, hcount, hmem⟩ := h.table
  rw [hother, hobj]
  refine ⟨⟨objs, ⟨?_, (swap_perm hslot hfirst).trans htable.perm⟩, hcount, hmem⟩, ?_, h.named⟩
  · dsimp only
    rw [List.length_set, List.length_set]
    exact htable.probed.swap hfirst (by rw [homeOf, hoid obj hobj]; rfl) hreached
  · have hload := h.load
    unfold ParsedObjectPool.objHashSize at hload ⊢
    rwa [List.length_set, List.length_set]

lemma lookupObject_spec (h : PoolInv oidhash pool objects) (oid : Oid) :
    ∃ pool', lookupObject oidhash pool oid = some (pool', objects oid) ∧ PoolInv oidhash pool' objects := by
  rw [lookupObject]
  split_ifs with hnull
  · -- there is no table and no object
    refine ⟨pool, ?_, h⟩
    cases hobj : objects oid with
    | none => rfl
    | some obj =>
      obtain ⟨d, hslot, -⟩ := h.exists_way hobj
      rw [hnull] at hslot
      cases hslot
  have hn : 0 < pool.objHashSize := List.length_pos_iff.mpr hnull
  have hstop : ∃ i < pool.objHashSize, (lookupStop pool.objHash oid i).isSome := by
    obtain ⟨objs, htable, hcount, -⟩ := h.table
    have hload := h.load
    obtain ⟨i, hi⟩ := exists_free (show (pool.objHash.filterMap id).length < pool.objHash.length by
      rw [htable.perm.length_eq, hcount]
      rw [ParsedObjectPool.objHashSize] at hload hn
      omega)
    refine ⟨i, (List.getElem?_eq_some_iff.mp hi).1, ?_⟩
    rw [lookupStop, getD_of_getElem? hi]
    rfl
  obtain ⟨m, hm, found, hgo, hfound, hrun⟩ := exists_probe wrap_lookup (@hashObj_lt _ oidhash oid _ hn) hstop
  refine ⟨moveToFirst pool (hashObj oidhash oid pool.objHashSize) found, ?_, ?_⟩
  · rw [← h.found_eq hgo hfound]
    dsimp only
    rw [hrun _ hm]
    rfl
  · exact h.moveToFirst hn hgo hfound

lemma mapOp_eq_none {op : PoolOp Oid Ptr} {oid : Oid} (hnew : objects oid = none)
    (hother : oid ∉ createdOids [op]) : (mapOp objects op).1 oid = none := by
  cases op with
  | lookup other => exact hnew
  | create other ptr =>
    have hne : oid ≠ other := by
      rintro rfl
      exact hother List.mem_cons_self
    exact (Function.update_of_ne hne _ _).trans hnew

lemma runPoolOp_spec (h : PoolInv oidhash pool objects) (op : PoolOp Oid Ptr)
    (hnew : ∀ oid ∈ createdOids [op], objects oid = none) :
    ∃ pool', runPoolOp oidhash pool op = some (pool', (mapOp objects op).2) ∧
      PoolInv oidhash pool' (mapOp objects op).1 := by
  cases op with
  | lookup oid => exact lookupObject_spec h oid
  | create oid ptr =>
    obtain ⟨pool', hcreate, hinv⟩ := createObject_spec h (hnew oid List.mem_cons_self) ptr
    exact ⟨pool', by rw [runPoolOp, hcreate]; rfl, hinv⟩

lemma runPoolOps_spec (h : PoolInv oidhash pool objects) (ops : List (PoolOp Oid Ptr)) (hnodup : (createdOids ops).Nodup)
    (hnew : ∀ oid ∈ createdOids ops, objects oid = none) :
    ∃ pool', runPoolOps oidhash pool ops = some (pool', (mapOps objects ops).2) ∧
      PoolInv oidhash pool' (mapOps objects ops).1 := by
  induction ops generalizing pool objects with
  | nil => exact ⟨pool, rfl, h⟩
  | cons op ops ih =>
    rw [createdOids_cons] at hnodup hnew
    obtain ⟨-, hnodup', hdisjoint⟩ := List.nodup_append.mp hnodup
    obtain ⟨pool₁, hop, hinv⟩ := runPoolOp_spec h op fun oid hoid => hnew oid (List.mem_append_left _ hoid)
    obtain ⟨pool', hops, hinv'⟩ := ih hinv hnodup' fun oid hoid =>
      mapOp_eq_none (hnew oid (List.mem_append_right _ hoid)) fun hmem => hdisjoint oid hmem oid hoid rfl
    refine ⟨pool', ?_, hinv'⟩
    rw [runPoolOps, hop]
    dsimp only [Option.bind_eq_bind, Option.bind_some]
    rw [hops]
    rfl

end Calls

end GitCore.Objects
