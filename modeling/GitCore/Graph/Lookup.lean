import GitCore.Lib.Bytes
import GitCore.Lib.Search
import Mathlib.Data.List.TakeWhile

/-!
# Object names in sorted tables

The searches of `hash-lookup.c`: `oid_pos` takes its first probe by interpolation, `bsearch_hash`
starts with the entries that share the first byte.
-/

namespace GitCore.Graph

abbrev ObjectId := List UInt8

def oidcmp (a b : ObjectId) : Int :=
  if a < b then -1 else if b < a then 1 else 0

def take2 (oid : ObjectId) (ofs : Nat) : Nat :=
  (oid.getD ofs 0).toNat * 256 + (oid.getD (ofs + 1) 0).toNat

/-- The first slot to look at, from the first two bytes in which the ends of the table differ;
nothing when the name lies outside of the table. -/
def firstProbe (rawsz : Nat) (table : List ObjectId) (oid : ObjectId) (ofs : Nat) : Option Nat :=
  if ofs < rawsz - 2 then
    if take2 oid ofs < take2 (table.headD []) ofs then none
    else if take2 (table.getLastD []) ofs < take2 oid ofs then none
    else if take2 (table.headD []) ofs ≠ take2 (table.getLastD []) ofs then
      some ((table.length - 1) * (take2 oid ofs - take2 (table.headD []) ofs) /
        (take2 (table.getLastD []) ofs - take2 (table.headD []) ofs))
    else firstProbe rawsz table oid (ofs + 2)
  else some 0
termination_by rawsz - 2 - ofs

def compareSlot (table : List ObjectId) (oid : ObjectId) (i : Nat) : Int :=
  oidcmp oid (table.getD i [])

def oidPos (rawsz : Nat) (table : List ObjectId) (oid : ObjectId) : Int :=
  if table.length = 0 then -1
  else
    match if table.length ≠ 1 then firstProbe rawsz table oid 0 else some 0 with
    | none => -1
    | some mi =>
      if compareSlot table oid mi = 0 then mi
      else if compareSlot table oid mi < 0 then binarySearch (compareSlot table oid) 0 mi
      else binarySearch (compareSlot table oid) (mi + 1) table.length

/-- The slot of the name between the bounds that the fanout gives for its first byte. -/
def bsearchHash (fanout : List Nat) (table : List ObjectId) (hash : ObjectId) : Option Nat :=
  let first := (hash.headD 0).toNat
  let lo := if first = 0 then 0 else fanout.getD (first - 1) 0
  let pos := binarySearch (compareSlot table hash) lo (fanout.getD first 0)
  if 0 ≤ pos then some pos.toNat else none

/-- The entries of the fanout from `i` on; `count` names start with a smaller byte than `i`. -/
def fanoutFrom : Nat → Nat → Nat → List ObjectId → List Nat
  | 0, _, _, _ => []
  | n + 1, i, count, list =>
    (count + (list.takeWhile fun oid => (oid.headD 0).toNat == i).length) ::
      fanoutFrom n (i + 1) (count + (list.takeWhile fun oid => (oid.headD 0).toNat == i).length)
        (list.dropWhile fun oid => (oid.headD 0).toNat == i)

def writeGraphChunkFanout (table : List ObjectId) : List Nat :=
  fanoutFrom 256 0 0 table

lemma comparesKeys_compareSlot (table : List ObjectId) (oid : ObjectId) :
    ComparesKeys id oid table (compareSlot table oid) := by
  intro i p hp
  rw [compareSlot, List.getD_eq_getElem?_getD, hp, Option.getD_some, oidcmp, id]
  rcases lt_trichotomy oid p with h | rfl | h
  · simp [h, h.ne]
  · simp
  · simp [h, h.not_gt, h.ne']

section Probe

lemma take2_drop (oid : ObjectId) (ofs : Nat) : take2 oid ofs = take2 (oid.drop ofs) 0 := by
  simp [take2, List.getD_eq_getElem?_getD]

lemma take2_le_of_le {x y : ObjectId} (hlen : x.length = y.length) (hle : x ≤ y) (hx : 2 ≤ x.length) :
    take2 x 0 ≤ take2 y 0 ∧ (take2 x 0 = take2 y 0 → x.drop 2 ≤ y.drop 2) := by
  match x, y, hlen, hx with
  | a :: b :: x, c :: d :: y, _, _ =>
    rw [← not_lt, List.cons_lt_cons_iff, List.cons_lt_cons_iff] at hle
    simp only [not_or, not_and, not_lt, UInt8.le_iff_toNat_le, ← UInt8.toNat_inj] at hle
    have hb := b.toNat_lt
    have hd := d.toNat_lt
    simp only [take2, List.getD_cons_zero, List.getD_cons_succ, zero_add, List.drop_succ_cons, List.drop_zero]
    constructor
    · by_cases h : a.toNat = c.toNat
      · have := (hle.2 h.symm).1
        omega
      · have := hle.1
        omega
    · intro h
      have hac : a.toNat = c.toNat := by omega
      have hbd : b.toNat = d.toNat := by omega
      exact (hle.2 hac.symm).2 hbd.symm

lemma firstProbe_spec {rawsz : Nat} {table : List ObjectId} {oid : ObjectId} (hne : table ≠ [])
    (hhead : (table.headD []).length = rawsz) (hlast : (table.getLastD []).length = rawsz)
    (hoid : oid.length = rawsz) (ofs : Nat) :
    (∀ mi, firstProbe rawsz table oid ofs = some mi → mi < table.length) ∧
      ((table.headD []).drop ofs ≤ oid.drop ofs → oid.drop ofs ≤ (table.getLastD []).drop ofs →
        (firstProbe rawsz table oid ofs).isSome) := by
  have hpos := List.length_pos_iff.mpr hne
  induction hn : rawsz - ofs using Nat.strong_induction_on generalizing ofs with
  | _ n ih =>
    rw [firstProbe]
    split_ifs with hofs hlow hhigh hends
    · refine ⟨by simp, fun hle _ => ?_⟩
      rw [take2_drop, take2_drop (table.headD [])] at hlow
      exact absurd (take2_le_of_le (by simp only [List.length_drop]; omega) hle
        (by simp only [List.length_drop]; omega)).1 (not_le.mpr hlow)
    · refine ⟨by simp, fun _ hle => ?_⟩
      rw [take2_drop, take2_drop oid] at hhigh
      exact absurd (take2_le_of_le (by simp only [List.length_drop]; omega) hle
        (by simp only [List.length_drop]; omega)).1 (not_le.mpr hhigh)
    · refine ⟨fun mi hmi => ?_, fun _ _ => rfl⟩
      obtain rfl := Option.some_inj.mp hmi
      have hmul : (table.length - 1) * (take2 oid ofs - take2 (table.headD []) ofs) ≤
          (table.length - 1) * (take2 (table.getLastD []) ofs - take2 (table.headD []) ofs) :=
        Nat.mul_le_mul_left _ (by omega)
      refine lt_of_le_of_lt (Nat.div_le_of_le_mul (hmul.trans (Nat.mul_comm _ _).le)) ?_
      omega
    · obtain ⟨hlt, hsome⟩ := ih (rawsz - (ofs + 2)) (by omega) (ofs + 2) rfl
      refine ⟨hlt, fun hle hge => hsome ?_ ?_⟩
      · have := (take2_le_of_le (by simp only [List.length_drop]; omega) hle
          (by simp only [List.length_drop]; omega)).2
        rw [← take2_drop, ← take2_drop, List.drop_drop, List.drop_drop] at this
        exact this (by omega)
      · have := (take2_le_of_le (by simp only [List.length_drop]; omega) hge
          (by simp only [List.length_drop]; omega)).2
        rw [← take2_drop, ← take2_drop, List.drop_drop, List.drop_drop] at this
        exact this (by omega)
    · exact ⟨fun mi hmi => by cases hmi; exact hpos, fun _ _ => rfl⟩

end Probe

/-- A table of names as a file has it: sorted, without duplicates, all of one length. -/
structure IsTable (rawsz : Nat) (table : List ObjectId) : Prop where
  sorted : table.Pairwise (· < ·)
  length_eq : ∀ oid ∈ table, oid.length = rawsz

section Searches

variable {rawsz : Nat} {table : List ObjectId} {oid : ObjectId}

lemma IsTable.getElem?_lt (h : IsTable rawsz table) {i j : Nat} {x y : ObjectId} (hx : table[i]? = some x)
    (hy : table[j]? = some y) (hij : i < j) : x < y := by
  obtain ⟨hi, rfl⟩ := List.getElem?_eq_some_iff.mp hx
  obtain ⟨hj, rfl⟩ := List.getElem?_eq_some_iff.mp hy
  exact List.pairwise_iff_getElem.mp h.sorted i j hi hj hij

lemma IsTable.getElem?_inj (h : IsTable rawsz table) {i j : Nat} {x : ObjectId} (hi : table[i]? = some x)
    (hj : table[j]? = some x) : i = j := by
  rcases lt_trichotomy i j with hij | hij | hij
  · exact absurd (h.getElem?_lt hi hj hij) (lt_irrefl x)
  · exact hij
  · exact absurd (h.getElem?_lt hj hi hij) (lt_irrefl x)

lemma binarySearch_table (h : IsTable rawsz table) {first last : Nat} (hfirst : first ≤ last)
    (hlast : last ≤ table.length) (hbefore : ∀ (i : Nat) (x : ObjectId), table[i]? = some x → i < first → x < oid)
    (hbehind : ∀ (i : Nat) (x : ObjectId), table[i]? = some x → last ≤ i → oid < x) :
    (∀ i : Nat, table[i]? = some oid → binarySearch (compareSlot table oid) first last = i) ∧
      (oid ∉ table → binarySearch (compareSlot table oid) first last < 0) := by
  obtain ⟨j, x, hx, rfl, hresult⟩ | ⟨j, -, hresult, hlow, hhigh⟩ :=
    binarySearch_between (by simpa using h.sorted) (comparesKeys_compareSlot table oid) hfirst hlast hbefore hbehind
  · refine ⟨fun i hi => ?_, fun hout => absurd (List.mem_of_getElem? hx) hout⟩
    rw [hresult, h.getElem?_inj hi hx]
  · refine ⟨fun i hi => ?_, fun _ => by rw [hresult]; omega⟩
    rcases lt_or_ge i j with hij | hij
    · exact absurd (hlow i oid hi hij) (lt_irrefl oid)
    · exact absurd (hhigh i oid hi hij) (lt_irrefl oid)

lemma compareSlot_eq_zero {i : Nat} (hi : i < table.length) :
    compareSlot table oid i = 0 ↔ oid = table[i] :=
  (comparesKeys_compareSlot table oid i _ (List.getElem?_eq_getElem hi)).2

lemma compareSlot_neg {i : Nat} (hi : i < table.length) :
    compareSlot table oid i < 0 ↔ oid < table[i] :=
  (comparesKeys_compareSlot table oid i _ (List.getElem?_eq_getElem hi)).1

lemma binarySearch_probe (h : IsTable rawsz table) {mi : Nat} (hmi : mi < table.length) :
    (∀ i : Nat, table[i]? = some oid → (if compareSlot table oid mi = 0 then (mi : Int)
        else if compareSlot table oid mi < 0 then binarySearch (compareSlot table oid) 0 mi
        else binarySearch (compareSlot table oid) (mi + 1) table.length) = i) ∧
      (oid ∉ table → (if compareSlot table oid mi = 0 then (mi : Int)
        else if compareSlot table oid mi < 0 then binarySearch (compareSlot table oid) 0 mi
        else binarySearch (compareSlot table oid) (mi + 1) table.length) < 0) := by
  have hget := List.getElem?_eq_getElem hmi
  split_ifs with hzero hneg
  · rw [compareSlot_eq_zero hmi] at hzero
    rw [← hzero] at hget
    refine ⟨fun i hi => ?_, fun hout => absurd (List.mem_of_getElem? hget) hout⟩
    rw [h.getElem?_inj hi hget]
  · rw [compareSlot_neg hmi] at hneg
    refine binarySearch_table h (Nat.zero_le _) hmi.le (fun _ _ _ hi => absurd hi (Nat.not_lt_zero _))
      fun i x hx hi => ?_
    obtain rfl | hi := Nat.eq_or_lt_of_le hi
    · rw [hget, Option.some_inj] at hx
      rwa [← hx]
    · exact hneg.trans (h.getElem?_lt hget hx hi)
  · rw [compareSlot_eq_zero hmi] at hzero
    rw [compareSlot_neg hmi] at hneg
    have hgreater : table[mi] < oid := lt_of_le_of_ne (not_lt.mp hneg) (Ne.symm hzero)
    refine binarySearch_table h hmi le_rfl (fun i x hx hi => ?_)
      fun i _ hx hi => absurd (List.getElem?_eq_some_iff.mp hx).1 (not_lt.mpr hi)
    obtain rfl | hi := Nat.eq_or_lt_of_le (Nat.le_of_lt_succ hi)
    · rw [hget, Option.some_inj] at hx
      rwa [← hx]
    · exact (h.getElem?_lt hx hget hi).trans hgreater

theorem oidPos_spec (h : IsTable rawsz table) (hoid : oid.length = rawsz) :
    (∀ i : Nat, table[i]? = some oid → oidPos rawsz table oid = i) ∧
      (oid ∉ table → oidPos rawsz table oid < 0) := by
  rw [oidPos]
  split_ifs with hempty hone
  · rw [List.length_eq_zero_iff.mp hempty]
    simp
  · have hne : table ≠ [] := fun hnil => hempty (by rw [hnil]; rfl)
    have hhead : table.headD [] ∈ table := by
      obtain ⟨x, xs, rfl⟩ := List.exists_cons_of_ne_nil hne
      simp
    have hlast : table.getLastD [] ∈ table := by
      rw [List.getLastD_eq_getLast?, List.getLast?_eq_getLast_of_ne_nil hne]
      exact List.getLast_mem hne
    obtain ⟨hlt, hsome⟩ := firstProbe_spec hne (h.length_eq _ hhead) (h.length_eq _ hlast) hoid 0
    cases hprobe : firstProbe rawsz table oid 0 with
    | some mi => exact binarySearch_probe h (hlt mi hprobe)
    | none =>
      refine ⟨fun i hi => ?_, fun _ => neg_one_lt_zero⟩
      exfalso
      rw [hprobe] at hsome
      have hmem := List.mem_of_getElem? hi
      have hle : table.headD [] ≤ oid := by
        obtain ⟨x, xs, rfl⟩ := List.exists_cons_of_ne_nil hne
        rcases List.mem_cons.mp hmem with rfl | hmem
        · exact le_rfl
        · exact ((List.pairwise_cons.mp h.sorted).1 oid hmem).le
      have hge : oid ≤ table.getLastD [] := by
        rw [List.getLastD_eq_getLast?, List.getLast?_eq_getLast_of_ne_nil hne, Option.getD_some]
        obtain ⟨hi', rfl⟩ := List.getElem?_eq_some_iff.mp hi
        rw [List.getLast_eq_getElem]
        rcases Nat.lt_or_eq_of_le (Nat.le_sub_one_of_lt hi') with hij | hij
        · exact (List.pairwise_iff_getElem.mp h.sorted _ _ hi' (by omega) hij).le
        · exact (getElem_congr_idx hij).le
      exact Bool.false_ne_true (hsome hle hge)
  · exact binarySearch_probe h (by omega)

end Searches

section Fanout

abbrev firstByte (oid : ObjectId) : Nat := (oid.headD 0).toNat

lemma firstByte_le_of_le {x y : ObjectId} (h : x ≤ y) : firstByte x ≤ firstByte y := by
  match x, y with
  | [], _ => exact Nat.zero_le _
  | a :: x, [] => exact absurd (List.nil_lt_cons a x) (not_lt.mpr h)
  | a :: x, b :: y =>
    rw [← not_lt, List.cons_lt_cons_iff, not_or] at h
    exact UInt8.le_iff_toNat_le.mp (not_lt.mp h.1)

lemma fanoutFrom_spec {list : List ObjectId} (hsorted : list.Pairwise (· < ·)) (n i count b : Nat)
    (hlow : ∀ x ∈ list, i ≤ firstByte x) (hb : b < n) :
    ∃ c, (fanoutFrom n i count list)[b]? = some (count + c) ∧ c ≤ list.length ∧
      (∀ x ∈ list.take c, firstByte x ≤ i + b) ∧ ∀ x ∈ list.drop c, i + b < firstByte x := by
  induction n generalizing i count b list with
  | zero => omega
  | succ n ih =>
    set head := list.takeWhile fun oid => firstByte oid == i with hhead
    set rest := list.dropWhile fun oid => firstByte oid == i with hrest
    have hsplit : list = head ++ rest := (List.takeWhile_append_dropWhile).symm
    have hheadBytes : ∀ x ∈ head, firstByte x = i := fun x hx =>
      beq_iff_eq.mp (List.mem_takeWhile_imp (p := fun oid => firstByte oid == i) hx)
    have hrestBytes : ∀ x ∈ rest, i + 1 ≤ firstByte x := by
      have hrestSorted : rest.Pairwise (· < ·) := hsorted.sublist (List.dropWhile_sublist _)
      cases hcase : rest with
      | nil => simp
      | cons y ys =>
        have hy : ¬ firstByte y = i := by
          have := List.head?_dropWhile_not (fun oid => firstByte oid == i) list
          rw [← hrest, hcase, List.head?_cons] at this
          simpa using this
        have hymem : y ∈ list := by rw [hsplit, hcase]; simp
        have hyge := hlow y hymem
        rw [hcase] at hrestSorted
        intro x hx
        rcases List.mem_cons.mp hx with rfl | hx
        · omega
        · have := firstByte_le_of_le ((List.pairwise_cons.mp hrestSorted).1 x hx).le
          omega
    cases b with
    | zero =>
      refine ⟨head.length, by rw [fanoutFrom]; rfl, by rw [hsplit]; simp, ?_, ?_⟩
      · rw [hsplit, List.take_left]
        exact fun x hx => (hheadBytes x hx).le
      · rw [hsplit, List.drop_left]
        exact fun x hx => hrestBytes x hx
    | succ b =>
      obtain ⟨c, hget, hc, htake, hdrop⟩ := ih (hsorted.sublist (List.dropWhile_sublist _)) (i + 1)
        (count + head.length) b hrestBytes (by omega)
      have hcRest : c ≤ rest.length := hc
      refine ⟨head.length + c, ?_, ?_, ?_, ?_⟩
      · rw [fanoutFrom, List.getElem?_cons_succ, hget, Nat.add_assoc]
      · rw [hsplit, List.length_append]
        omega
      · rw [hsplit, List.take_length_add_append]
        intro x hx
        rcases List.mem_append.mp hx with hx | hx
        · have := hheadBytes x hx
          omega
        · have := htake x hx
          omega
      · rw [hsplit, List.drop_length_add_append]
        intro x hx
        have := hdrop x hx
        omega

lemma fanout_spec {table : List ObjectId} (hsorted : table.Pairwise (· < ·)) {b : Nat} (hb : b < 256) :
    (writeGraphChunkFanout table).getD b 0 ≤ table.length ∧
      (∀ (i : Nat) (x : ObjectId), table[i]? = some x → i < (writeGraphChunkFanout table).getD b 0 → firstByte x ≤ b) ∧
      ∀ (i : Nat) (x : ObjectId), table[i]? = some x → (writeGraphChunkFanout table).getD b 0 ≤ i → b < firstByte x := by
  obtain ⟨c, hget, hc, htake, hdrop⟩ := fanoutFrom_spec hsorted 256 0 0 b (fun _ _ => Nat.zero_le _) hb
  have hvalue : (writeGraphChunkFanout table).getD b 0 = c := by
    rw [List.getD_eq_getElem?_getD, writeGraphChunkFanout, hget, Option.getD_some, Nat.zero_add]
  rw [hvalue]
  refine ⟨hc, fun i x hx hi => ?_, fun i x hx hi => ?_⟩
  · have := htake x (List.mem_of_getElem? (by rw [List.getElem?_take_of_lt hi]; exact hx))
    omega
  · have := hdrop x (List.mem_of_getElem? (i := i - c) (by rw [List.getElem?_drop, Nat.add_sub_cancel' hi]; exact hx))
    omega

theorem bsearchHash_spec {rawsz : Nat} {table : List ObjectId} (h : IsTable rawsz table) (hash : ObjectId) :
    (∀ i : Nat, table[i]? = some hash → bsearchHash (writeGraphChunkFanout table) table hash = some i) ∧
      (hash ∉ table → bsearchHash (writeGraphChunkFanout table) table hash = none) := by
  have hbyte : firstByte hash < 256 := (hash.headD 0).toNat_lt
  obtain ⟨hhi, hhiBefore, hhiBehind⟩ := fanout_spec h.sorted hbyte
  set lo := if firstByte hash = 0 then 0 else (writeGraphChunkFanout table).getD (firstByte hash - 1) 0 with hlo
  set hi := (writeGraphChunkFanout table).getD (firstByte hash) 0
  have hbefore : ∀ (i : Nat) (x : ObjectId), table[i]? = some x → i < lo → firstByte x < firstByte hash := by
    intro i x hx hi
    rw [hlo] at hi
    split_ifs at hi with hzero
    · omega
    · have := (fanout_spec h.sorted (show firstByte hash - 1 < 256 by omega)).2.1 i x hx hi
      omega
  have hle : lo ≤ hi := by
    by_contra hlt
    have hloLen : lo ≤ table.length := by
      rw [hlo]
      split_ifs
      · exact Nat.zero_le _
      · exact (fanout_spec h.sorted (by omega)).1
    have hhiLt : hi < table.length := by omega
    have := hbefore hi _ (List.getElem?_eq_getElem hhiLt) (by omega)
    have := hhiBehind hi _ (List.getElem?_eq_getElem hhiLt) le_rfl
    omega
  have hsearch := @binarySearch_table rawsz table hash h _ _ hle hhi
    (fun i x hx hi => not_le.mp fun hge => not_le.mpr (hbefore i x hx hi) (firstByte_le_of_le hge))
    (fun i x hx hi => not_le.mp fun hge => not_le.mpr (hhiBehind i x hx hi) (firstByte_le_of_le hge))
  have hdef : bsearchHash (writeGraphChunkFanout table) table hash =
      if 0 ≤ binarySearch (compareSlot table hash) lo hi
      then some (binarySearch (compareSlot table hash) lo hi).toNat else none := rfl
  rw [hdef]
  refine ⟨fun i hi => ?_, fun hout => if_neg (not_le.mpr (hsearch.2 hout))⟩
  rw [hsearch.1 i hi, if_pos (Int.natCast_nonneg i), Int.toNat_natCast]

end Fanout

end GitCore.Graph
