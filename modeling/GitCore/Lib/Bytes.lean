import Mathlib.Tactic
import Mathlib.Data.List.Lex

/-!
# Byte strings

Bytes are ordered as unsigned numbers and byte strings lexicographically, as by `memcmp`.
Big-endian numbers of one width are ordered as byte strings like the numbers themselves.
-/

namespace GitCore

instance byteLinearOrder : LinearOrder UInt8 where
  le_refl _ := by simp only [UInt8.le_iff_toNat_le, le_refl]
  le_trans a b c := by simp only [UInt8.le_iff_toNat_le]; omega
  lt_iff_le_not_ge a b := by simp only [UInt8.le_iff_toNat_le, UInt8.lt_iff_toNat_lt]; omega
  le_antisymm a b hab hba := by
    simp only [UInt8.le_iff_toNat_le] at hab hba
    exact UInt8.toNat_inj.mp (by omega)
  le_total a b := by simp only [UInt8.le_iff_toNat_le]; omega
  toDecidableLE := inferInstance

instance byteStringLawfulBEq : LawfulBEq (List UInt8) := inferInstance

/-- The low `len` bytes of `v`, most significant first. -/
def beBytes : Nat → Nat → List UInt8
  | 0, _ => []
  | len + 1, v => UInt8.ofNat (v / 256 ^ len % 256) :: beBytes len v

def beValue (bs : List UInt8) : Nat :=
  bs.foldl (fun v b => v * 256 + b.toNat) 0

@[simp]
lemma length_beBytes (len v : Nat) : (beBytes len v).length = len := by
  induction len with
  | zero => rfl
  | succ len ih => simp [beBytes, ih]

lemma toNat_ofNat_mod (v : Nat) : (UInt8.ofNat (v % 256)).toNat = v % 256 := by
  rw [UInt8.toNat_ofNat']
  omega

lemma beBytes_lt_iff (len v w : Nat) :
    beBytes len v < beBytes len w ↔ v % 256 ^ len < w % 256 ^ len := by
  induction len with
  | zero => simp [beBytes, Nat.mod_one]
  | succ len ih =>
    rw [beBytes, beBytes, List.cons_lt_cons_iff, ih, UInt8.lt_iff_toNat_lt, ← UInt8.toNat_inj,
      toNat_ofNat_mod, toNat_ofNat_mod, pow_succ, Nat.mod_mul, Nat.mod_mul]
    have hv := Nat.mod_lt v (show 256 ^ len > 0 by positivity)
    have hw := Nat.mod_lt w (show 256 ^ len > 0 by positivity)
    generalize v / 256 ^ len % 256 = a
    generalize w / 256 ^ len % 256 = b
    constructor
    · rintro (hlt | ⟨rfl, hlt⟩)
      · have : 256 ^ len * (a + 1) ≤ 256 ^ len * b := Nat.mul_le_mul_left _ hlt
        rw [Nat.mul_succ] at this
        omega
      · omega
    · intro hlt
      rcases lt_trichotomy a b with hab | rfl | hab
      · exact .inl hab
      · exact .inr ⟨rfl, by omega⟩
      · have : 256 ^ len * (b + 1) ≤ 256 ^ len * a := Nat.mul_le_mul_left _ hab
        rw [Nat.mul_succ] at this
        omega

lemma beValue_append_singleton (bs : List UInt8) (b : UInt8) :
    beValue (bs ++ [b]) = beValue bs * 256 + b.toNat := by
  simp [beValue]

lemma beValue_foldl (bs : List UInt8) (v : Nat) :
    bs.foldl (fun v b => v * 256 + b.toNat) v = v * 256 ^ bs.length + beValue bs := by
  induction bs using List.reverseRecOn generalizing v with
  | nil => simp [beValue]
  | append_singleton bs b ih =>
    rw [List.foldl_append, ih, beValue_append_singleton]
    simp only [List.foldl_cons, List.foldl_nil, List.length_append, List.length_singleton, pow_succ]
    ring

lemma beValue_beBytes (len v : Nat) : beValue (beBytes len v) = v % 256 ^ len := by
  induction len with
  | zero => simp [beBytes, beValue, Nat.mod_one]
  | succ len ih =>
    rw [beBytes, beValue, List.foldl_cons, beValue_foldl, ih, length_beBytes, toNat_ofNat_mod,
      pow_succ, Nat.mod_mul]
    ring

section Prefix

variable {α : Type*} [LinearOrder α]

lemma le_of_prefix {p x : List α} (h : p <+: x) : p ≤ x := by
  rw [← not_lt]
  intro hlt
  obtain ⟨rest, rfl⟩ := h
  induction p with
  | nil => cases rest <;> simp at hlt
  | cons a p ih =>
    rw [List.cons_append, List.cons_lt_cons_iff] at hlt
    obtain hlt | ⟨-, hlt⟩ := hlt
    · exact lt_irrefl a hlt
    · exact ih hlt

lemma prefix_of_le_of_le {p x y : List α} (hy : p <+: y) (hpx : p ≤ x) (hxy : x ≤ y) : p <+: x := by
  rw [← not_lt] at hpx hxy
  induction p generalizing x y with
  | nil => exact List.nil_prefix
  | cons a p ih =>
    obtain ⟨rest, rfl⟩ := hy
    cases x with
    | nil => exact absurd (List.nil_lt_cons a p) hpx
    | cons b x =>
      rw [List.cons_append, List.cons_lt_cons_iff, not_or, not_and] at hxy
      rw [List.cons_lt_cons_iff, not_or, not_and] at hpx
      obtain rfl : a = b := le_antisymm (not_lt.mp hpx.1) (not_lt.mp hxy.1)
      exact List.cons_prefix_cons.mpr ⟨rfl, ih (List.prefix_append p rest) (hpx.2 rfl) (hxy.2 rfl)⟩

end Prefix

end GitCore
