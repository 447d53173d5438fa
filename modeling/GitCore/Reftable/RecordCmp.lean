import GitCore.Reftable.Compact
import GitCore.Reftable.Structs

/-!
# When records are compared like their keys

The comparison of two records of one type has the sign of the comparison of their keys, except for log
records of one ref whose update indices are too far apart for the `int` that their difference becomes.
-/

namespace GitCore.Reftable.Structs

/-- The records can be compared, with the sign of the comparison of their encoded keys. -/
def CmpAgrees (a b : Record) : Prop :=
  ∃ cmp, reftableRecordCmp a b = some cmp ∧ cmp.sign = (reftableBufCmp a.key b.key).sign

/-- The difference of two update indices keeps its sign in an `int`: modulo 2^32 it is not 0 and lies in the half
of the `int` that its sign says. -/
def SignKept (a b : UInt64) : Prop :=
  a = b ∨ (a < b ∧ 0 < (b.toNat - a.toNat) % 2 ^ 32 ∧ (b.toNat - a.toNat) % 2 ^ 32 < 2 ^ 31) ∨
    (b < a ∧ 0 < (a.toNat - b.toNat) % 2 ^ 32 ∧ (a.toNat - b.toNat) % 2 ^ 32 ≤ 2 ^ 31)

lemma sign_eq_sign_iff {x y : Int} : x.sign = y.sign ↔ (x < 0 ↔ y < 0) ∧ (x = 0 ↔ y = 0) := by
  have hx := Int.sign_eq_neg_one_iff_neg (a := x)
  have hy := Int.sign_eq_neg_one_iff_neg (a := y)
  have hx0 := Int.sign_eq_zero_iff_zero (a := x)
  have hy0 := Int.sign_eq_zero_iff_zero (a := y)
  rcases Int.sign_trichotomy x with h | h | h <;> rcases Int.sign_trichotomy y with h' | h' | h' <;> omega

lemma sign_eq_iff {cmp : Int} {a b : List UInt8} :
    cmp.sign = (reftableBufCmp a b).sign ↔ (cmp < 0 ↔ a < b) ∧ (cmp = 0 ↔ a = b) := by
  rw [sign_eq_sign_iff, reftableBufCmp_neg, reftableBufCmp_zero]

lemma bmod_sub_iff {x y : Nat} (hx : x < 2 ^ 64) (hy : y < 2 ^ 64) {d : Nat} (hd : d = (2 ^ 64 - x + y) % 2 ^ 64) :
    ((Int.bmod d (2 ^ 32) < 0 ↔ y < x) ∧ (Int.bmod d (2 ^ 32) = 0 ↔ x = y)) ↔
      x = y ∨ (x < y ∧ 0 < (y - x) % 2 ^ 32 ∧ (y - x) % 2 ^ 32 < 2 ^ 31) ∨
        (y < x ∧ 0 < (x - y) % 2 ^ 32 ∧ (x - y) % 2 ^ 32 ≤ 2 ^ 31) := by
  rw [Int.bmod_def]
  simp only [Nat.reducePow] at *
  split_ifs <;> omega

lemma indexComparable_iff (a b : UInt64) : IndexComparable a b ↔ SignKept a b := by
  have h := bmod_sub_iff a.toNat_lt b.toNat_lt (UInt64.toNat_sub b a)
  simp only [← UInt64.lt_iff_toNat_lt, UInt64.toNat_inj] at h
  exact h

lemma logRecord_cmp_iff (a b : LogRecord) :
    (LogRecord.cmp a b).sign = (reftableBufCmp a.key b.key).sign ↔
      (a.refname = b.refname → SignKept a.updateIndex b.updateIndex) := by
  rw [sign_eq_iff, ← indexComparable_iff, ← LogRecord.toLogRecord_cmp, ← LogRecord.toLogRecord_key,
    ← LogRecord.toLogRecord_key]
  constructor
  · intro h hname
    have hlt := h.1.trans (Reftable.LogRecord.key_lt (a := a.toLogRecord) (b := b.toLogRecord))
    have heq := h.2.trans (Reftable.LogRecord.key_eq (a := a.toLogRecord) (b := b.toLogRecord))
    have hzero : strcmp a.refname b.refname = 0 := by
      rw [hname]
      exact reftableBufCmp_zero.mpr rfl
    have hcmp : Reftable.LogRecord.cmp a.toLogRecord b.toLogRecord = toCInt (b.updateIndex - a.updateIndex) := by
      rw [LogRecord.toLogRecord_cmp, LogRecord.cmp]
      simp only [hzero, ne_eq, not_true_eq_false, if_false]
    rw [hcmp] at hlt heq
    refine ⟨hlt.trans ?_, heq.trans ?_⟩
    · simp [LogRecord.toLogRecord, hname]
    · simp [LogRecord.toLogRecord, hname]
  · intro h
    exact logVtable_cmpExact (a := a.toLogRecord) (b := b.toLogRecord) h

/-- Two records of one type are compared like their encoded keys, unless they are log records of one ref
whose update indices are so far apart that their difference loses its sign in an `int`. -/
theorem reftableRecordCmp_iff (a b : Record) (htype : a.type = b.type) (hobj : a.type ≠ .obj) :
    CmpAgrees a b ↔ ∀ la lb, a = .log la → b = .log lb → la.refname = lb.refname →
      SignKept la.updateIndex lb.updateIndex := by
  cases a with
  | ref ra =>
    cases b <;> simp only [Record.type, reduceCtorEq] at htype
    case ref rb =>
      refine iff_of_true ⟨_, rfl, rfl⟩ ?_
      intro la lb hla
      cases hla
  | log la =>
    cases b <;> simp only [Record.type, reduceCtorEq] at htype
    case log lb =>
      have hcmp : CmpAgrees (.log la) (.log lb) ↔ (LogRecord.cmp la lb).sign = (reftableBufCmp la.key lb.key).sign := by
        constructor
        · intro h
          obtain ⟨cmp, hsome, hsign⟩ := h
          rw [Option.some.inj hsome]
          exact hsign
        · exact fun h => ⟨_, rfl, h⟩
      rw [hcmp, logRecord_cmp_iff]
      constructor
      · intro h la' lb' hla hlb
        cases hla
        cases hlb
        exact h
      · exact fun h => h la lb rfl rfl
  | obj ra => exact absurd rfl hobj
  | index ra =>
    cases b <;> simp only [Record.type, reduceCtorEq] at htype
    case index rb =>
      refine iff_of_true ⟨_, rfl, rfl⟩ ?_
      intro la lb hla
      cases hla

def deletedEntry (updateIndex : UInt64) : LogRecord where
  refname := ⟨[97], nul_notMem_letter⟩
  updateIndex := updateIndex
  valueType := .deletion
  update := ⟨.zero, .zero, none, none, 0, 0, none⟩

theorem reftableRecordCmp_near : (Record.log (deletedEntry 1)).type = .log ∧
    (CmpAgrees (.log (deletedEntry 1)) (.log (deletedEntry 2)) ↔
      ∀ la lb, Record.log (deletedEntry 1) = .log la → Record.log (deletedEntry 2) = .log lb →
        la.refname = lb.refname → SignKept la.updateIndex lb.updateIndex) :=
  ⟨rfl, reftableRecordCmp_iff (.log (deletedEntry 1)) (.log (deletedEntry 2)) rfl (by decide)⟩

/-- Update indices 2^32 apart compare equal though the keys differ. -/
theorem reftableRecordCmp_narrowed :
    ¬CmpAgrees (.log (deletedEntry 0)) (.log (deletedEntry 4294967296)) := by
  intro h
  obtain ⟨cmp, hsome, hsign⟩ := h
  have hzero : cmp = 0 := (Option.some.inj hsome).symm.trans (by decide)
  rw [hzero, Record.key, Record.key, sign_eq_iff] at hsign
  have hkey := hsign.2.mp rfl
  exact absurd hkey (by decide)

end GitCore.Reftable.Structs
