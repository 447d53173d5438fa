import GitCore.Lib.Bytes

/-!
# Reftable records

Ref and log records of `reftable-record.h` with their keys and comparisons from `record.c`.
-/

namespace GitCore.Reftable

structure CString where
  bytes : List UInt8
  no_nul : 0 ∉ bytes
deriving DecidableEq

lemma nul_notMem_nil : (0 : UInt8) ∉ ([] : List UInt8) := List.not_mem_nil

/-- The sign of `memcmp` on the common length, then the comparison of the lengths. -/
def reftableBufCmp (a b : List UInt8) : Int :=
  if a < b then -1 else if a = b then 0 else 1

def strcmp (a b : CString) : Int :=
  reftableBufCmp a.bytes b.bytes

/-- Conversion of a `uint64_t` to `int` keeps the low 32 bits. -/
def toCInt (x : UInt64) : Int :=
  Int.bmod x.toNat (2 ^ 32)

inductive RefValue
  | deletion
  | val1 (value : List UInt8)
  | val2 (value target : List UInt8)
  | symref (target : CString)
deriving DecidableEq

structure RefRecord where
  refname : CString
  updateIndex : UInt64
  value : RefValue
deriving DecidableEq

structure LogUpdate where
  oldHash : List UInt8
  newHash : List UInt8
  name : CString
  email : CString
  time : UInt64
  tzOffset : UInt16
  message : CString
deriving DecidableEq

inductive LogValue
  | deletion
  | update (value : LogUpdate)
deriving DecidableEq

structure LogRecord where
  refname : CString
  updateIndex : UInt64
  value : LogValue
deriving DecidableEq

namespace RefRecord

def key (rec : RefRecord) : List UInt8 := rec.refname.bytes

def cmp (a b : RefRecord) : Int := strcmp a.refname b.refname

def isDeletion (rec : RefRecord) : Bool := rec.value = .deletion

end RefRecord

namespace LogRecord

/-- `reftable_log_record_key`: the name, its terminator and the inverted update index. -/
def key (rec : LogRecord) : List UInt8 :=
  rec.refname.bytes ++ 0 :: beBytes 8 (2 ^ 64 - 1 - rec.updateIndex.toNat)

/-- `reftable_log_record_cmp_void`: the difference of the update indices is returned as an `int`. -/
def cmp (a b : LogRecord) : Int :=
  let cmp := strcmp a.refname b.refname
  if cmp ≠ 0 then cmp else toCInt (b.updateIndex - a.updateIndex)

def isDeletion (rec : LogRecord) : Bool := rec.value = .deletion

end LogRecord

/-- What the merged iterator uses of a record type (`struct reftable_record_vtable`). -/
structure RecordVtable (R : Type) where
  key : R → List UInt8
  cmp : R → R → Int
  isDeletion : R → Bool

def refVtable : RecordVtable RefRecord := ⟨RefRecord.key, RefRecord.cmp, RefRecord.isDeletion⟩

def logVtable : RecordVtable LogRecord := ⟨LogRecord.key, LogRecord.cmp, LogRecord.isDeletion⟩

def RecordVtable.CmpExact {R : Type} (vt : RecordVtable R) (a b : R) : Prop :=
  (vt.cmp a b < 0 ↔ vt.key a < vt.key b) ∧ (vt.cmp a b = 0 ↔ vt.key a = vt.key b)

lemma reftableBufCmp_neg {a b : List UInt8} : reftableBufCmp a b < 0 ↔ a < b := by
  unfold reftableBufCmp
  split_ifs <;> simp_all

lemma reftableBufCmp_zero {a b : List UInt8} : reftableBufCmp a b = 0 ↔ a = b := by
  unfold reftableBufCmp
  split_ifs with h h'
  · simp [h.ne]
  · simp [h']
  · simp [h']

lemma refVtable_cmpExact (a b : RefRecord) : refVtable.CmpExact a b :=
  ⟨reftableBufCmp_neg, reftableBufCmp_zero⟩

lemma append_nul_lt_append_nul {a b xs ys : List UInt8} (ha : 0 ∉ a) (hb : 0 ∉ b) :
    a ++ 0 :: xs < b ++ 0 :: ys ↔ a < b ∨ a = b ∧ xs < ys := by
  induction a generalizing b with
  | nil =>
    cases b with
    | nil => simp
    | cons c b =>
      have hc : 0 < c := by
        rw [UInt8.lt_iff_toNat_lt]
        have : c ≠ 0 := fun h => hb (by simp [h])
        have : c.toNat ≠ 0 := fun h => this (UInt8.toNat_inj.mp h)
        exact Nat.pos_of_ne_zero this
      simp [List.cons_lt_cons_iff, hc]
  | cons d a ih =>
    cases b with
    | nil =>
      have hd : d ≠ 0 := fun h => ha (by simp [h])
      have hlt : ¬ d < 0 := by simp [UInt8.lt_iff_toNat_lt]
      simp [List.cons_lt_cons_iff, hd, hlt]
    | cons c b =>
      have ih := ih (b := b) (fun h => ha (by simp [h])) (fun h => hb (by simp [h]))
      simp only [List.cons_append, List.cons_lt_cons_iff, ih, List.cons.injEq]
      tauto

lemma LogRecord.key_lt {a b : LogRecord} :
    a.key < b.key ↔ a.refname.bytes < b.refname.bytes ∨
      a.refname.bytes = b.refname.bytes ∧ b.updateIndex < a.updateIndex := by
  have ha := a.updateIndex.toNat_lt
  have hb := b.updateIndex.toNat_lt
  rw [key, key, append_nul_lt_append_nul a.refname.no_nul b.refname.no_nul, beBytes_lt_iff,
    Nat.mod_eq_of_lt (by omega), Nat.mod_eq_of_lt (by omega), UInt64.lt_iff_toNat_lt]
  constructor
  · rintro (h | ⟨h, hlt⟩)
    · exact .inl h
    · exact .inr ⟨h, by omega⟩
  · rintro (h | ⟨h, hlt⟩)
    · exact .inl h
    · exact .inr ⟨h, by omega⟩

lemma CString.bytes_inj {a b : CString} : a.bytes = b.bytes ↔ a = b := by
  cases a
  cases b
  simp

lemma LogRecord.key_eq {a b : LogRecord} :
    a.key = b.key ↔ a.refname = b.refname ∧ a.updateIndex = b.updateIndex := by
  constructor
  · intro h
    have hab := LogRecord.key_lt.not.mp h.not_lt
    have hba := LogRecord.key_lt.not.mp h.not_gt
    simp only [not_or, not_and, not_lt] at hab hba
    have hname := le_antisymm hba.1 hab.1
    have hle := UInt64.le_iff_toNat_le.mp (UInt64.not_lt.mp (hab.2 hname))
    have hge := UInt64.le_iff_toNat_le.mp (UInt64.not_lt.mp (hba.2 hname.symm))
    exact ⟨CString.bytes_inj.mp hname, UInt64.toNat_inj.mp (le_antisymm hle hge)⟩
  · rintro ⟨hname, hidx⟩
    rw [key, key, hname, hidx]

end GitCore.Reftable
