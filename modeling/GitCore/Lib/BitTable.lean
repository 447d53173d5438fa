import Mathlib.Tactic

/-!
# Tables of bits in bytes

A byte string is read as the set of the positions whose bits are on, eight to a byte and the lowest
bit first.
-/

namespace GitCore

def bitMask (pos : Nat) : UInt8 := 1 <<< UInt8.ofNat (pos % 8)

def setBit (data : List UInt8) (pos : Nat) : List UInt8 :=
  data.set (pos / 8) (data.getD (pos / 8) 0 ||| bitMask pos)

def hasBit (data : List UInt8) (pos : Nat) : Bool := data.getD (pos / 8) 0 &&& bitMask pos ≠ 0

def bitSet (data : List UInt8) : Set Nat := {pos | hasBit data pos = true}

lemma mem_bitSet {data : List UInt8} {pos : Nat} : pos ∈ bitSet data ↔ hasBit data pos = true := Iff.rfl

lemma byte_or_and_distrib (a b c : UInt8) : (a ||| b) &&& c = a &&& c ||| b &&& c := by
  rw [← UInt8.toBitVec_inj, UInt8.toBitVec_and, UInt8.toBitVec_or, UInt8.toBitVec_or, UInt8.toBitVec_and,
    UInt8.toBitVec_and, BitVec.and_or_distrib_right]

lemma bitMask_and (a b : Nat) : bitMask a &&& bitMask b ≠ 0 ↔ a % 8 = b % 8 := by
  have hfin : ∀ i j : Fin 8, (1 <<< UInt8.ofNat i.val : UInt8) &&& 1 <<< UInt8.ofNat j.val ≠ 0 ↔ i.val = j.val := by
    decide
  exact hfin ⟨a % 8, by omega⟩ ⟨b % 8, by omega⟩

@[simp]
lemma length_setBit (data : List UInt8) (pos : Nat) : (setBit data pos).length = data.length :=
  List.length_set

/-- A bit that is turned on joins the set, and nothing else changes. -/
theorem bitSet_setBit {data : List UInt8} {pos : Nat} (h : pos < data.length * 8) :
    bitSet (setBit data pos) = insert pos (bitSet data) := by
  ext q
  rw [Set.mem_insert_iff, mem_bitSet, mem_bitSet, hasBit, hasBit, decide_eq_true_iff, decide_eq_true_iff, setBit]
  by_cases hbyte : q / 8 = pos / 8
  · have hlt : pos / 8 < data.length := by omega
    have hsame : q = pos ↔ pos % 8 = q % 8 := by omega
    have hget : (data.set (pos / 8) (data.getD (pos / 8) 0 ||| bitMask pos)).getD (q / 8) 0 =
        data.getD (q / 8) 0 ||| bitMask pos := by
      rw [hbyte, List.getD_eq_getElem?_getD, List.getElem?_set_self hlt, Option.getD_some]
    rw [hget, byte_or_and_distrib, Ne, UInt8.or_eq_zero_iff, not_and_or, hsame, ← bitMask_and, or_comm]
  · have hget : (data.set (pos / 8) (data.getD (pos / 8) 0 ||| bitMask pos)).getD (q / 8) 0 =
        data.getD (q / 8) 0 := by
      rw [List.getD_eq_getElem?_getD, List.getD_eq_getElem?_getD, List.getElem?_set_ne (Ne.symm hbyte)]
      exact (List.getD_eq_getElem?_getD).symm
    have hne : q ≠ pos := by
      rintro rfl
      exact hbyte rfl
    rw [hget, or_iff_right hne]

@[simp]
lemma length_foldl_setBit (ps : List Nat) (data : List UInt8) :
    (ps.foldl setBit data).length = data.length := by
  induction ps generalizing data with
  | nil => rfl
  | cons p ps ih => rw [List.foldl_cons, ih, length_setBit]

/-- Turning on several bits. -/
theorem bitSet_foldl_setBit {ps : List Nat} {data : List UInt8} (h : ∀ p ∈ ps, p < data.length * 8) :
    bitSet (ps.foldl setBit data) = bitSet data ∪ {p | p ∈ ps} := by
  induction ps generalizing data with
  | nil => simp
  | cons p ps ih =>
    have hrest : ∀ q ∈ ps, q < (setBit data p).length * 8 := by
      intro q hq
      rw [length_setBit]
      exact h q (List.mem_cons_of_mem _ hq)
    rw [List.foldl_cons, ih hrest, bitSet_setBit (h p List.mem_cons_self)]
    ext q
    simp only [Set.mem_union, Set.mem_insert_iff, Set.mem_ofPred_eq, List.mem_cons]
    tauto

end GitCore
