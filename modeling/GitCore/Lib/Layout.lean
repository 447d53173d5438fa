import GitCore.Lib.Bytes

/-!
# Tables in a byte string

A file is a sequence of tables; a table is a sequence of records of one width.
-/

namespace GitCore

def slice (data : List UInt8) (pos len : Nat) : List UInt8 :=
  (data.drop pos).take len

/-- The big-endian number of `len` bytes at `pos`. -/
def beAt (data : List UInt8) (pos len : Nat) : Nat :=
  beValue (slice data pos len)

section Slice

variable {data x y : List UInt8} {pos a b : Nat}

lemma slice_table {tables : List (List UInt8)} {i len : Nat} (h : data = tables.flatten) (hx : tables[i]? = some x)
    (hpos : ((tables.take i).map List.length).sum = pos) (hlen : x.length = len) : slice data pos len = x := by
  obtain ⟨hi, rfl⟩ := List.getElem?_eq_some_iff.mp hx
  have hsplit : data = (tables.take i).flatten ++ (tables[i] ++ (tables.drop (i + 1)).flatten) := by
    rw [h, ← List.flatten_cons, ← List.flatten_append, List.getElem_cons_drop, List.take_append_drop]
  subst hpos hlen
  rw [slice, hsplit, ← List.length_flatten, List.drop_left, List.take_left]

lemma slice_split (h : slice data pos (a + b) = x ++ y) (hx : x.length = a) (hy : y.length = b) :
    slice data pos a = x ∧ slice data (pos + a) b = y := by
  have htake : slice data pos a = (slice data pos (a + b)).take a := by
    rw [slice, slice, List.take_take, Nat.min_eq_left (by omega)]
  have hdrop : slice data (pos + a) b = (slice data pos (a + b)).drop a := by
    rw [slice, slice, List.drop_take, List.drop_drop]
    congr 1
    omega
  rw [htake, hdrop, h, ← hx, List.take_left, List.drop_left]
  exact ⟨rfl, rfl⟩

end Slice

section Table

variable {α : Type*} {enc : α → List UInt8} {w : Nat}

lemma length_table {l : List α} (hw : ∀ r ∈ l, (enc r).length = w) : (l.flatMap enc).length = w * l.length := by
  induction l with
  | nil => simp
  | cons r l ih =>
    rw [List.flatMap_cons, List.length_append, hw r (by simp), ih fun s hs => hw s (by simp [hs]), List.length_cons]
    ring

lemma slice_record {data : List UInt8} {pos : Nat} {l : List α} (hw : ∀ r ∈ l, (enc r).length = w)
    (h : slice data pos (w * l.length) = l.flatMap enc) {i : Nat} {r : α} (hr : l[i]? = some r) :
    slice data (pos + w * i) w = enc r := by
  induction l generalizing pos i with
  | nil => simp at hr
  | cons s l ih =>
    have hw' : ∀ r ∈ l, (enc r).length = w := fun r hr => hw r (by simp [hr])
    rw [List.length_cons, Nat.mul_succ, Nat.add_comm, List.flatMap_cons] at h
    obtain ⟨hhead, htail⟩ := slice_split h (hw s (by simp)) (length_table hw')
    cases i with
    | zero =>
      obtain rfl : s = r := by simpa using hr
      simpa using hhead
    | succ i =>
      rw [show pos + w * (i + 1) = pos + w + w * i by ring]
      exact ih hw' htail (by simpa using hr)

lemma beAt_record {data : List UInt8} {pos : Nat} {l : List Nat} (h : slice data pos (w * l.length) = l.flatMap (beBytes w))
    {i v : Nat} (hv : l[i]? = some v) (hlt : v < 256 ^ w) : beAt data (pos + w * i) w = v := by
  rw [beAt, slice_record (fun _ _ => length_beBytes _ _) h hv, beValue_beBytes, Nat.mod_eq_of_lt hlt]

end Table

end GitCore
