import GitCore.Ewah.Operations
import GitCore.Ewah.Readers

/-!
# Bitmaps that are built in order

A bitmap is built by calls in increasing position. What the calls ask for is kept beside it: the
bits that are counted and the positions that are set.
-/

namespace GitCore.Ewah

inductive Call
  | add (word : Eword)
  | addEmptyWords (v : Bool) (number : Nat)
  | set (i : Nat)

def apply (self : EwahBitmap) : Call → EwahBitmap
  | .add word => (ewahAdd self word).1
  | .addEmptyWords v number => (ewahAddEmptyWords self v number).1
  | .set i => ewahSet self i

def build (calls : List Call) : EwahBitmap := calls.foldl apply ewahNew

structure Target where
  bitSize : Nat
  bits : List Nat

def Target.base (t : Target) : Nat := divRoundUp t.bitSize bitsInEword * bitsInEword

def Target.next (t : Target) : Call → Target
  | .add word => ⟨t.bitSize + bitsInEword, t.bits ++ (wordBits word).map (t.base + ·)⟩
  | .addEmptyWords v number => ⟨t.bitSize + number * bitsInEword,
      t.bits ++ if v then (List.range (number * bitsInEword)).map (t.base + ·) else []⟩
  | .set i => ⟨i + 1, t.bits ++ [i]⟩

def target (calls : List Call) : Target := calls.foldl Target.next ⟨0, []⟩

def Allowed (t : Target) : Call → Prop
  | .add _ => True
  | .addEmptyWords _ _ => True
  | .set i => t.bitSize ≤ i ∧ ∀ p ∈ t.bits, p < i

def Increasing : Target → List Call → Prop
  | _, [] => True
  | t, call :: calls => Allowed t call ∧ Increasing (t.next call) calls

/-- Every reader finds the bits of the target, and each run-length word counts the words behind it. -/
structure Represents (bitmap : EwahBitmap) (t : Target) : Prop where
  eachBit : ewahEachBit bitmap = t.bits
  iterator : bitsAt 0 (ewahWords bitmap) = t.bits
  popcount : ewahBitmapPopcount bitmap = t.bits.length
  toBitmap : ∀ pos, bitmapGet (ewahToBitmap bitmap) pos = true ↔ pos ∈ t.bits
  markers : ∃ runs last, Holds bitmap t.bitSize runs last ∧ decode runs ++ last.words = ewahWords bitmap

def Inv (self : EwahBitmap) (t : Target) : Prop :=
  ∃ words, Stores self t.bitSize words ∧ words.length = divRoundUp t.bitSize bitsInEword ∧ bitsAt 0 words = t.bits

lemma divRoundUp_add (n k : Nat) : divRoundUp (n + k * bitsInEword) bitsInEword = divRoundUp n bitsInEword + k := by
  unfold divRoundUp bitsInEword
  omega

lemma divRoundUp_succ (i : Nat) : divRoundUp (i + 1) bitsInEword = i / bitsInEword + 1 := by
  unfold divRoundUp bitsInEword
  omega

lemma div_mul_add_mod (i : Nat) : i / bitsInEword * bitsInEword + i % bitsInEword = i := by
  rw [Nat.mul_comm, Nat.div_add_mod]

lemma set_inv {self : EwahBitmap} {t : Target} (h : Inv self t) {i : Nat} (hsize : t.bitSize ≤ i)
    (hbits : ∀ p ∈ t.bits, p < i) : Inv (ewahSet self i) ⟨i + 1, t.bits ++ [i]⟩ := by
  obtain ⟨words, hstores, hlength, hwords⟩ := h
  have hmod : i % bitsInEword < bitsInEword := Nat.mod_lt _ (by decide)
  have hdiv := div_mul_add_mod i
  rcases Nat.lt_or_ge (divRoundUp t.bitSize bitsInEword) (divRoundUp (i + 1) bitsInEword) with hfar | hnear
  · have hblock : words.length + (divRoundUp (i + 1) bitsInEword - divRoundUp t.bitSize bitsInEword - 1) =
        i / bitsInEword := by
      rw [hlength]
      have hsucc := divRoundUp_succ i
      omega
    refine ⟨_, ewahSet_stores_far hstores hfar, ?_, ?_⟩
    · rw [List.length_append, List.length_append, List.length_replicate, List.length_singleton, hblock,
        divRoundUp_succ]
    · rw [bitsAt_append, bitsAt_append, bitsAt_zeros, List.append_nil, List.length_append, List.length_replicate,
        hblock, hwords, bitsAt, wordBits_bit hmod, Nat.zero_add]
      change t.bits ++ [i / bitsInEword * bitsInEword + i % bitsInEword] = _
      rw [hdiv]
  · have hlast : words.length = i / bitsInEword + 1 := by
      have hmono : divRoundUp t.bitSize bitsInEword ≤ divRoundUp (i + 1) bitsInEword :=
        Nat.div_le_div_right (Nat.sub_le_sub_right (Nat.add_le_add_right (hsize.trans (Nat.le_succ i)) _) 1)
      rw [hlength, ← divRoundUp_succ]
      exact Nat.le_antisymm hmono hnear
    have hne : words ≠ [] := List.ne_nil_of_length_pos (by rw [hlast]; exact Nat.succ_pos _)
    obtain ⟨init, w, rfl⟩ : ∃ init w, words = init ++ [w] := ⟨_, _, (List.dropLast_append_getLast hne).symm⟩
    have hinit : init.length = i / bitsInEword := by
      rw [List.length_append, List.length_singleton] at hlast
      exact Nat.succ_injective hlast
    have hsplit : bitsAt 0 init ++ (wordBits w).map (i / bitsInEword * bitsInEword + ·) = t.bits := by
      rw [← hwords, bitsAt_append, hinit, bitsAt, Nat.zero_add, show bitsAt _ [] = [] from rfl, List.append_nil]
    have hbelow : ∀ c ∈ wordBits w, c < i % bitsInEword := by
      intro c hc
      have hlt := hbits (i / bitsInEword * bitsInEword + c) (by
        rw [← hsplit]
        exact List.mem_append_right _ (List.mem_map.mpr ⟨c, hc, rfl⟩))
      omega
    have hones : w ≠ ~~~0 := by
      rintro rfl
      have hall := hbelow (i % bitsInEword) (by rw [wordBits_ones]; exact List.mem_range.mpr hmod)
      exact Nat.lt_irrefl _ hall
    refine ⟨_, ewahSet_stores_near hstores hnear hones, ?_, ?_⟩
    · rw [List.length_append, List.length_singleton, hinit, divRoundUp_succ]
    · rw [bitsAt_append, bitsAt, wordBits_or hmod hbelow, hinit, Nat.zero_add, show bitsAt _ [] = [] from rfl,
        List.append_nil, List.map_append, ← List.append_assoc, hsplit]
      change t.bits ++ [i / bitsInEword * bitsInEword + i % bitsInEword] = _
      rw [hdiv]

lemma apply_inv {self : EwahBitmap} {t : Target} {call : Call} (h : Inv self t) (hcall : Allowed t call) :
    Inv (apply self call) (t.next call) := by
  cases call with
  | add word =>
    obtain ⟨words, hstores, hlength, hwords⟩ := h
    refine ⟨words ++ [word], ewahAdd_stores hstores word, ?_, ?_⟩
    · have hstep := divRoundUp_add t.bitSize 1
      rw [Nat.one_mul] at hstep
      rw [List.length_append, List.length_singleton, hlength, Target.next, hstep]
    · rw [bitsAt_append, hwords, bitsAt, hlength, Nat.zero_add, show bitsAt _ [] = [] from rfl, List.append_nil]
      rfl
  | addEmptyWords v number =>
    obtain ⟨words, hstores, hlength, hwords⟩ := h
    refine ⟨words ++ List.replicate number (fillWord v), ewahAddEmptyWords_stores hstores v number, ?_, ?_⟩
    · rw [List.length_append, List.length_replicate, hlength, Target.next, divRoundUp_add]
    · rw [bitsAt_append, hwords, bitsAt_fill, hlength, Nat.zero_add]
      rfl
  | set i => exact set_inv h hcall.1 hcall.2

lemma foldl_inv {calls : List Call} {self : EwahBitmap} {t : Target} (h : Inv self t) (hcalls : Increasing t calls) :
    Inv (calls.foldl apply self) (calls.foldl Target.next t) := by
  induction calls generalizing self t with
  | nil => exact h
  | cons call calls ih => exact ih (apply_inv h hcalls.1) hcalls.2

lemma Inv.represents {self : EwahBitmap} {t : Target} (h : Inv self t) : Represents self t := by
  obtain ⟨words, hstores, -, hwords⟩ := h
  have hencodes := hstores.encodes
  refine ⟨?_, ?_, ?_, ?_, ?_⟩
  · rw [ewahEachBit_eq hencodes, hwords]
  · rw [ewahWords_eq hencodes, hwords]
  · rw [ewahBitmapPopcount_eq hencodes, hwords]
  · intro pos
    rw [bitmapGet_iff, ewahToBitmap_words hencodes, hwords]
  · rw [ewahWords_eq hencodes]
    exact hencodes

lemma build_represents {calls : List Call} (hcalls : Increasing ⟨0, []⟩ calls) :
    Represents (build calls) (target calls) :=
  (foldl_inv ⟨[], stores_ewahNew, rfl, rfl⟩ hcalls).represents

lemma increasing_set {positions : List Nat} (hsorted : positions.Pairwise (· < ·)) {t : Target}
    (hsize : ∀ i ∈ positions, t.bitSize ≤ i) (hbits : ∀ i ∈ positions, ∀ p ∈ t.bits, p < i) :
    Increasing t (positions.map .set) := by
  induction positions generalizing t with
  | nil => trivial
  | cons i positions ih =>
    obtain ⟨hfirst, hrest⟩ := List.pairwise_cons.mp hsorted
    refine ⟨⟨hsize i (by simp), hbits i (by simp)⟩, ih hrest hfirst ?_⟩
    intro j hj p hp
    rcases List.mem_append.mp hp with hp | hp
    · exact hbits j (List.mem_cons_of_mem _ hj) p hp
    · rw [List.mem_singleton.mp hp]
      exact hfirst j hj

lemma bits_set (positions : List Nat) (t : Target) :
    ((positions.map Call.set).foldl Target.next t).bits = t.bits ++ positions := by
  induction positions generalizing t with
  | nil => exact (List.append_nil _).symm
  | cons i positions ih =>
    rw [List.map_cons, List.foldl_cons, ih, Target.next, List.append_assoc]
    rfl

/-- A bitmap that is built in increasing order has exactly the bits that were asked for; for single
bits these are the positions themselves. -/
theorem ewah_represents :
    (∀ calls : List Call, Increasing ⟨0, []⟩ calls → Represents (build calls) (target calls)) ∧
    ∀ positions : List Nat, positions.Pairwise (· < ·) →
      Represents (build (positions.map .set)) (target (positions.map .set)) ∧
      (target (positions.map .set)).bits = positions := by
  refine ⟨fun calls hcalls => build_represents hcalls, fun positions hsorted => ⟨build_represents ?_, ?_⟩⟩
  · exact increasing_set hsorted (fun i _ => Nat.zero_le i) (fun i _ p hp => nomatch hp)
  · exact bits_set positions ⟨0, []⟩

theorem ewah_represents_mixed :
    Represents (build [.set 3, .addEmptyWords false 2, .set 190, .add (BitVec.ofNat 64 5), .set 300])
      (target [.set 3, .addEmptyWords false 2, .set 190, .add (BitVec.ofNat 64 5), .set 300]) ∧
    (target ([1, 76, 77].map .set)).bits = [1, 76, 77] := by
  refine ⟨ewah_represents.1 _ ?_, (ewah_represents.2 [1, 76, 77] (by decide)).2⟩
  simp only [Increasing, Allowed, Target.next, Target.base]
  decide

end GitCore.Ewah
