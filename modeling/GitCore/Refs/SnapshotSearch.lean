import GitCore.Refs.SnapshotSpec
import GitCore.Lib.Paths

/-!
# The search in sorted records

The content of a snapshot as a list of records. The binary search over the bytes ends at the record of a
name, or at the boundary where it belongs.
-/

namespace GitCore.Refs

/-- A record: the line of a reference, with its name behind the object id and a space, and possibly a
peeled line. -/
structure Record (hexsz : Nat) where
  head : List UInt8
  name : List UInt8
  peeled : Option (List UInt8)
  head_length : head.length = hexsz + 1
  head_lf : lf ∉ head
  name_lf : lf ∉ name
  peeled_lf : ∀ line ∈ peeled, lf ∉ line

variable {hexsz : Nat}

namespace Record

def peeledLine (r : Record hexsz) : List UInt8 :=
  match r.peeled with
  | none => []
  | some line => caret :: (line ++ [lf])

def bytes (r : Record hexsz) : List UInt8 :=
  r.head ++ (r.name ++ lf :: r.peeledLine)

def RefLine (r : Record hexsz) : Prop := r.head.head? ≠ some caret

lemma bytes_ne_nil (r : Record hexsz) : r.bytes ≠ [] := by simp [bytes]

lemma length_bytes_pos (r : Record hexsz) : 0 < r.bytes.length := List.length_pos_iff.mpr r.bytes_ne_nil

lemma bytes_last (r : Record hexsz) : ∃ front, r.bytes = front ++ [lf] := by
  unfold bytes peeledLine
  cases r.peeled with
  | none => exact ⟨r.head ++ r.name, by simp⟩
  | some line => exact ⟨r.head ++ (r.name ++ lf :: caret :: line), by simp⟩

lemma bytes_lf (r : Record hexsz) {i : Nat} (h : r.bytes[i]? = some lf) :
    i + 1 = r.bytes.length ∨ r.bytes[i + 1]? = some caret := by
  obtain ⟨line, hline, hlf⟩ : ∃ line, r.bytes = line ++ lf :: r.peeledLine ∧ lf ∉ line :=
    ⟨r.head ++ r.name, by simp [bytes], by simp [r.head_lf, r.name_lf]⟩
  rw [hline] at h ⊢
  obtain hlt | rfl | hgt := lt_trichotomy i line.length
  · rw [List.getElem?_append_left hlt] at h
    exact absurd (List.mem_of_getElem? h) hlf
  · unfold peeledLine
    cases r.peeled with
    | none => exact .inl (by simp)
    | some peeled => exact .inr (by simp)
  · obtain ⟨k, rfl⟩ := Nat.exists_eq_add_of_lt hgt
    rw [List.getElem?_append_right (by omega), show line.length + k + 1 - line.length = k + 1 by omega,
      List.getElem?_cons_succ] at h
    unfold peeledLine at h ⊢
    cases hpeeled : r.peeled with
    | none => simp [hpeeled] at h
    | some peeled =>
      rw [hpeeled] at h
      dsimp only at h ⊢
      have hno := r.peeled_lf peeled hpeeled
      obtain hlt | hge := lt_or_ge k (peeled.length + 1)
      · rw [← List.cons_append, List.getElem?_append_left (by simpa using hlt)] at h
        have := List.mem_of_getElem? h
        rw [List.mem_cons] at this
        exact absurd (this.resolve_left (by decide)) hno
      · have hk : k < (caret :: (peeled ++ [lf])).length := (List.getElem?_eq_some_iff.mp h).1
        left
        simp only [List.length_append, List.length_cons, List.length_nil] at hk ⊢
        omega

end Record

def content (records : List (Record hexsz)) : List UInt8 :=
  records.flatMap Record.bytes

@[simp]
lemma content_nil : content ([] : List (Record hexsz)) = [] := rfl

@[simp]
lemma content_cons (r : Record hexsz) (records : List (Record hexsz)) : content (r :: records) = r.bytes ++ content records :=
  List.flatMap_cons

@[simp]
lemma content_append (a b : List (Record hexsz)) : content (a ++ b) = content a ++ content b :=
  List.flatMap_append

lemma content_last {records : List (Record hexsz)} (h : records ≠ []) : ∃ front, content records = front ++ [lf] := by
  obtain ⟨bytes, hbytes⟩ := (records.getLast h).bytes_last
  refine ⟨content records.dropLast ++ bytes, ?_⟩
  rw [List.append_assoc, ← hbytes, ← List.append_nil (Record.bytes _), ← content_nil, ← content_cons, ← content_append,
    List.dropLast_append_getLast]

variable {a c : List (Record hexsz)} {r : Record hexsz}

lemma not_recordStart_inside {p : Nat} (hlow : (content a).length < p) (hhigh : p < (content a).length + r.bytes.length) :
    ¬RecordStart (content (a ++ r :: c)) p := by
  rintro ⟨-, hlf, d, hd, hne⟩
  obtain ⟨k, rfl⟩ := Nat.exists_eq_add_of_lt hlow
  rw [content_append, content_cons] at hlf hd
  rw [show (content a).length + k + 1 - 1 = (content a).length + k by omega, List.getElem?_append_right (by omega),
    Nat.add_sub_cancel_left, List.getElem?_append_left (by omega)] at hlf
  rw [Nat.add_assoc, List.getElem?_append_right (by omega), Nat.add_sub_cancel_left,
    List.getElem?_append_left (by omega)] at hd
  obtain hend | hcaret := r.bytes_lf hlf
  · omega
  · rw [hd] at hcaret
    exact hne (Option.some.inj hcaret)

lemma recordStart_content (ha : a ≠ []) (hr : r.RefLine) : RecordStart (content (a ++ r :: c)) (content a).length := by
  obtain ⟨front, hfront⟩ := content_last ha
  obtain ⟨d, head, hhead⟩ : ∃ d head, r.head = d :: head :=
    List.exists_cons_of_length_eq_add_one r.head_length
  have hne : d ≠ caret := by
    intro h
    rw [Record.RefLine, hhead, h] at hr
    exact hr rfl
  refine ⟨by simp [hfront], ?_, d, ?_, hne⟩
  · rw [content_append, hfront]
    simp
  · rw [content_append, List.getElem?_append_right le_rfl, Nat.sub_self, content_cons, Record.bytes, hhead]
    rfl

lemma findStartOfRecord_content {lo mid : Nat} (hr : r.RefLine) (hlo : lo ≤ (content a).length) (ha : a = [] → lo = 0)
    (hlow : (content a).length ≤ mid) (hhigh : mid < (content a).length + r.bytes.length) :
    findStartOfRecord (content (a ++ r :: c)) lo mid = some (content a).length := by
  have hlen : mid < (content (a ++ r :: c)).length := by
    simp only [content_append, content_cons, List.length_append]
    omega
  obtain ⟨q, hq, hge, hle, hstart, hlast⟩ := findStartOfRecord_spec (hlo.trans hlow) hlen
  rw [hq, Option.some_inj]
  obtain hlt | heq | hgt := lt_trichotomy q (content a).length
  · have hne : a ≠ [] := by
      rintro rfl
      simp at hlt
    exact absurd (recordStart_content hne hr) (hlast _ hlt hlow)
  · exact heq
  · obtain rfl | hstart := hstart
    · omega
    · exact absurd hstart (not_recordStart_inside hgt (by omega))

lemma findEndOfRecord_content {hi mid : Nat} (hc : ∀ s ∈ c, s.RefLine) (hlow : (content a).length ≤ mid)
    (hhigh : mid < (content a).length + r.bytes.length) (hhi : (content a).length + r.bytes.length ≤ hi)
    (hlen : hi ≤ (content (a ++ r :: c)).length) :
    findEndOfRecord (content (a ++ r :: c)) mid hi = some ((content a).length + r.bytes.length) := by
  obtain ⟨q, hq, hgt, hle, hstart, hfirst⟩ := findEndOfRecord_spec (by omega : mid < hi) hlen
  rw [hq, Option.some_inj]
  obtain hlt | heq | hbehind := lt_trichotomy q ((content a).length + r.bytes.length)
  · obtain rfl | hstart := hstart
    · omega
    · exact absurd hstart (not_recordStart_inside (by omega) hlt)
  · exact heq
  · cases c with
    | nil =>
      simp at hlen
      omega
    | cons s c =>
      have hnext := recordStart_content (a := a ++ [r]) (c := c) (by simp) (hc s (List.mem_cons_self ..))
      have hend : (content (a ++ [r])).length = (content a).length + r.bytes.length := by simp
      rw [List.append_assoc, List.singleton_append, hend] at hnext
      exact absurd hnext (hfirst _ (by omega) hbehind)

def compareName (start : Bool) (name refname : List UInt8) : Int :=
  if name = refname then 0
  else if start = false ∧ refname <+: name then -1
  else if name < refname then -1
  else 1

lemma cmpRecordLoop_spec (start : Bool) {name : List UInt8} (hname : lf ∉ name) (refname rest : List UInt8) :
    cmpRecordLoop start (name ++ lf :: rest) refname = some (compareName start name refname) := by
  induction name generalizing refname with
  | nil =>
    rw [List.nil_append, cmpRecordLoop.eq_def]
    dsimp only
    rw [if_pos rfl]
    cases refname with
    | nil => rfl
    | cons d refname => simp [compareName]
  | cons c name ih =>
    rw [List.mem_cons, not_or] at hname
    obtain ⟨hc, hname⟩ := hname
    rw [List.cons_append, cmpRecordLoop.eq_def]
    dsimp only
    rw [if_neg (Ne.symm hc)]
    cases refname with
    | nil => cases start <;> simp [compareName]
    | cons d refname =>
      dsimp only
      split_ifs with hne hlt
      · simp [compareName, hne, hlt, List.cons_prefix_cons, Ne.symm hne, List.cons_lt_cons_iff]
      · simp [compareName, hne, hlt, List.cons_prefix_cons, Ne.symm hne, List.cons_lt_cons_iff]
      · obtain rfl := not_not.mp hne
        rw [ih hname]
        simp [compareName, List.cons_prefix_cons]

lemma cmpRecordToRefname_content (refname : List UInt8) (start : Bool) :
    cmpRecordToRefname hexsz (content (a ++ r :: c)) (content a).length refname start =
      some (compareName start r.name refname) := by
  have hdrop : (content (a ++ r :: c)).drop ((content a).length + hexsz + 1) =
      r.name ++ lf :: (r.peeledLine ++ content c) := by
    rw [content_append, content_cons, Record.bytes, List.append_assoc, ← List.append_assoc,
      show (content a).length + hexsz + 1 = (content a ++ r.head).length by rw [List.length_append, r.head_length]; omega,
      List.drop_left]
    simp
  rw [cmpRecordToRefname, hdrop]
  exact cmpRecordLoop_spec start r.name_lf refname _

def SearchOrder (start : Bool) (refname : List UInt8) (records : List (Record hexsz)) : Prop :=
  records.Pairwise (fun r s => compareName start s.name refname ≤ 0 → compareName start r.name refname < 0)

lemma compareName_zero {start : Bool} {name refname : List UInt8} (h : compareName start name refname = 0) :
    name = refname := by
  unfold compareName at h
  split_ifs at h with heq
  · exact heq
  · exact absurd h (by decide)

lemma exists_record_at {b : List (Record hexsz)} {k : Nat} (hk : k < (content b).length) :
    ∃ b₁ r b₂, b = b₁ ++ r :: b₂ ∧ (content b₁).length ≤ k ∧ k < (content b₁).length + r.bytes.length := by
  induction b generalizing k with
  | nil => simp at hk
  | cons r b ih =>
    obtain hlt | hge := lt_or_ge k r.bytes.length
    · exact ⟨[], r, b, rfl, by simp, by simpa using hlt⟩
    · rw [content_cons, List.length_append] at hk
      obtain ⟨b₁, s, b₂, rfl, hlow, hhigh⟩ := ih (k := k - r.bytes.length) (by omega)
      refine ⟨r :: b₁, s, b₂, rfl, ?_, ?_⟩
      · rw [content_cons, List.length_append]
        omega
      · rw [content_cons, List.length_append]
        omega

lemma findReferenceLoop_content {start : Bool} {refname : List UInt8} {b : List (Record hexsz)}
    (hline : ∀ r ∈ a ++ (b ++ c), r.RefLine) (horder : SearchOrder start refname (a ++ (b ++ c))) :
    (∃ b₁ r b₂, b = b₁ ++ r :: b₂ ∧ r.name = refname ∧
      findReferenceLoop hexsz (content (a ++ (b ++ c))) refname start (content a).length (content (a ++ b)).length =
        some ((content (a ++ b₁)).length, true)) ∨
    ∃ b₁ b₂, b = b₁ ++ b₂ ∧ (∀ r ∈ b₁, compareName start r.name refname < 0) ∧
      (∀ r ∈ b₂, 0 < compareName start r.name refname) ∧
      findReferenceLoop hexsz (content (a ++ (b ++ c))) refname start (content a).length (content (a ++ b)).length =
        some ((content (a ++ b₁)).length, false) := by
  induction hn : b.length using Nat.strong_induction_on generalizing a b c with
  | _ n ih =>
    by_cases hempty : b = []
    · subst hempty
      refine .inr ⟨[], [], rfl, by simp, by simp, ?_⟩
      rw [findReferenceLoop, if_neg (by simp)]
      simp
    have hpos : 0 < (content b).length := by
      obtain ⟨r, rest, rfl⟩ := List.exists_cons_of_ne_nil hempty
      have := r.length_bytes_pos
      rw [content_cons, List.length_append]
      omega
    have hhi : (content (a ++ b)).length = (content a).length + (content b).length := by simp
    obtain ⟨b₁, r, b₂, rfl, hlow, hhigh⟩ := exists_record_at (Nat.div_lt_self hpos (by decide : 1 < 2))
    have hsnapshot : a ++ ((b₁ ++ r :: b₂) ++ c) = (a ++ b₁) ++ r :: (b₂ ++ c) := by simp
    obtain ⟨mid, hmid⟩ : ∃ mid, mid = (content a).length + (content (b₁ ++ r :: b₂)).length / 2 := ⟨_, rfl⟩
    have hlenBoth : (content (a ++ b₁)).length = (content a).length + (content b₁).length := by simp
    have hmidLow : (content (a ++ b₁)).length ≤ mid := by omega
    have hmidHigh : mid < (content (a ++ b₁)).length + r.bytes.length := by omega
    have hmem : ∀ s, s ∈ a ++ ((b₁ ++ r :: b₂) ++ c) ↔ s ∈ a ∨ s ∈ b₁ ∨ s = r ∨ s ∈ b₂ ∨ s ∈ c := by
      intro s
      simp only [List.mem_append, List.mem_cons]
      tauto
    have hrecord := findStartOfRecord_content (c := b₂ ++ c) (hline r ((hmem r).mpr (by tauto)))
      (by omega : (content a).length ≤ (content (a ++ b₁)).length) (by simp +contextual) hmidLow hmidHigh
    have hnextLine : ∀ s ∈ b₂ ++ c, s.RefLine := by
      intro s hs
      rw [List.mem_append] at hs
      exact hline s ((hmem s).mpr (by tauto))
    have hnextLe : (content (a ++ b₁)).length + r.bytes.length ≤ (content (a ++ (b₁ ++ r :: b₂))).length := by
      simp only [content_append, content_cons, List.length_append]
      omega
    have hnextLen : (content (a ++ (b₁ ++ r :: b₂))).length ≤ (content ((a ++ b₁) ++ r :: (b₂ ++ c))).length := by
      simp only [content_append, content_cons, List.length_append]
      omega
    have hnext := findEndOfRecord_content hnextLine hmidLow hmidHigh hnextLe hnextLen
    have hcmp := cmpRecordToRefname_content (a := a ++ b₁) (r := r) (c := b₂ ++ c) refname start
    have hbetween := horder
    rw [hsnapshot, SearchOrder, List.pairwise_append, List.pairwise_cons] at hbetween
    have hlt : (content a).length < (content (a ++ (b₁ ++ r :: b₂))).length := by omega
    have hmid' : mid = (content a).length + ((content (a ++ (b₁ ++ r :: b₂))).length - (content a).length) / 2 := by
      rw [hmid, hhi, Nat.add_sub_cancel_left]
    rw [hmid'] at hrecord hnext
    rw [hsnapshot, findReferenceLoop_step hlt hrecord hcmp hnext]
    split_ifs with hless hgreater
    · -- the records up to `r` are smaller
      have hbefore : ∀ s ∈ b₁ ++ [r], compareName start s.name refname < 0 := by
        intro s hs
        rw [List.mem_append, List.mem_singleton] at hs
        obtain hs | rfl := hs
        · exact hbetween.2.2 s (List.mem_append_right a hs) r (List.mem_cons_self ..) hless.le
        · exact hless
      have hsame : (a ++ b₁) ++ r :: (b₂ ++ c) = (a ++ b₁ ++ [r]) ++ (b₂ ++ c) := by simp
      have hall : a ++ (b₁ ++ r :: b₂) = (a ++ b₁ ++ [r]) ++ b₂ := by simp
      have hstart : (content (a ++ b₁)).length + r.bytes.length = (content (a ++ b₁ ++ [r])).length := by
        simp [Nat.add_assoc]
      rw [hsnapshot, hsame] at hline horder
      rw [hsame, hall, hstart]
      obtain ⟨c₁, s, c₂, rfl, hname, hresult⟩ | ⟨c₁, c₂, rfl, hc₁, hc₂, hresult⟩ := ih b₂.length (by
        rw [← hn]
        simp
        omega) hline horder rfl
      · exact .inl ⟨b₁ ++ r :: c₁, s, c₂, by simp, hname, by rw [hresult]; simp⟩
      · refine .inr ⟨b₁ ++ r :: c₁, c₂, by simp, fun s hs => ?_, hc₂, by rw [hresult]; simp⟩
        rw [List.mem_append, List.mem_cons] at hs
        obtain hs | rfl | hs := hs
        · exact hbefore s (List.mem_append_left _ hs)
        · exact hless
        · exact hc₁ s hs
    · -- the records from `r` on are greater
      have hsame : (a ++ b₁) ++ r :: (b₂ ++ c) = a ++ (b₁ ++ (r :: (b₂ ++ c))) := by simp
      rw [hsnapshot, hsame] at hline horder
      rw [hsame]
      obtain ⟨c₁, s, c₂, rfl, hname, hresult⟩ | ⟨c₁, c₂, rfl, hc₁, hc₂, hresult⟩ := ih b₁.length (by
        rw [← hn]
        simp) hline horder rfl
      · exact .inl ⟨c₁, s, c₂ ++ r :: b₂, by simp, hname, hresult⟩
      · refine .inr ⟨c₁, c₂ ++ r :: b₂, by simp, hc₁, fun s hs => ?_, hresult⟩
        rw [List.mem_append, List.mem_cons] at hs
        obtain hs | rfl | hs := hs
        · exact hc₂ s hs
        · exact hgreater
        · by_contra hle
          have := hbetween.2.1.1 s (List.mem_append_left c hs) (not_lt.mp hle)
          omega
    · exact .inl ⟨b₁, r, b₂, rfl, compareName_zero (le_antisymm (not_lt.mp hgreater) (not_lt.mp hless)), rfl⟩

structure SortedRecords (records : List (Record hexsz)) : Prop where
  refLine : ∀ r ∈ records, r.RefLine
  sorted : records.Pairwise (fun r s => r.name < s.name)

lemma compareName_true {name refname : List UInt8} :
    (compareName true name refname < 0 ↔ name < refname) ∧ (0 < compareName true name refname ↔ refname < name) := by
  obtain hlt | rfl | hgt := lt_trichotomy name refname
  · simp [compareName, hlt, hlt.ne, hlt.le]
  · simp [compareName]
  · simp [compareName, hgt, hgt.ne', lt_asymm hgt]

lemma compareName_false {name refname : List UInt8} (h : name ≠ refname) :
    (compareName false name refname < 0 ↔ name < refname ∨ refname <+: name) ∧
      (0 < compareName false name refname ↔ refname < name ∧ ¬refname <+: name) := by
  by_cases hprefix : refname <+: name
  · simp [compareName, h, hprefix]
  · obtain hlt | heq | hgt := lt_trichotomy name refname
    · simp [compareName, h, hprefix, hlt, hlt.le]
    · exact absurd heq h
    · simp [compareName, h, hprefix, hgt, lt_asymm hgt]

variable {records : List (Record hexsz)} {refname : List UInt8}

lemma SortedRecords.searchOrder_true (h : SortedRecords records) : SearchOrder true refname records := by
  refine h.sorted.imp fun {r s} hlt hle => compareName_true.1.mpr ?_
  exact hlt.trans_le (not_lt.mp fun hgt => absurd (compareName_true.2.mpr hgt) (not_lt.mpr hle))

lemma SortedRecords.searchOrder_false (h : SortedRecords records) (hother : ∀ r ∈ records, r.name ≠ refname) :
    SearchOrder false refname records := by
  refine List.Pairwise.imp_of_mem (fun {r s} hr hs hlt hle => ?_) h.sorted
  have hne : compareName false s.name refname ≠ 0 := fun h => hother s hs (compareName_zero h)
  refine (compareName_false (hother r hr)).1.mpr ?_
  obtain hs' | hprefix := (compareName_false (hother s hs)).1.mp (lt_of_le_of_ne hle hne)
  · exact .inl (hlt.trans hs')
  · -- names between the prefix and one that has it have it too
    obtain hlow | hlow := lt_or_ge r.name refname
    · exact .inl hlow
    · exact .inr (prefix_of_between hlow hlt.le hprefix)

lemma findReferenceLocation_spec (h : SortedRecords records) (refname : List UInt8) (mustexist : Bool) :
    (∃ a r c, records = a ++ r :: c ∧ r.name = refname ∧
      findReferenceLocation hexsz (content records) refname mustexist = some (some (content a).length)) ∨
    ∃ a c, records = a ++ c ∧ (∀ r ∈ a, r.name < refname) ∧ (∀ r ∈ c, refname < r.name) ∧
      findReferenceLocation hexsz (content records) refname mustexist =
        some (if mustexist then none else some (content a).length) := by
  have hsearch := @findReferenceLoop_content _ [] [] true refname records
    (by simpa using h.refLine) (by simpa using h.searchOrder_true)
  simp only [List.nil_append, List.append_nil, content_nil, List.length_nil] at hsearch
  unfold findReferenceLocation findReferenceLocation1
  obtain ⟨a, r, c, rfl, hname, hresult⟩ | ⟨a, c, rfl, ha, hc, hresult⟩ := hsearch
  · exact .inl ⟨a, r, c, rfl, hname, by rw [hresult]⟩
  · exact .inr ⟨a, c, rfl, fun r hr => compareName_true.1.mp (ha r hr), fun r hr => compareName_true.2.mp (hc r hr),
      by rw [hresult]⟩

lemma findReferenceLocationEnd_spec (h : SortedRecords records) (refname : List UInt8)
    (hother : ∀ r ∈ records, r.name ≠ refname) (mustexist : Bool) :
    ∃ a c, records = a ++ c ∧ (∀ r ∈ a, r.name < refname ∨ refname <+: r.name) ∧
      (∀ r ∈ c, refname < r.name ∧ ¬refname <+: r.name) ∧
      findReferenceLocationEnd hexsz (content records) refname mustexist =
        some (if mustexist then none else some (content a).length) := by
  have hsearch := @findReferenceLoop_content _ [] [] false refname records
    (by simpa using h.refLine) (by simpa using h.searchOrder_false hother)
  simp only [List.nil_append, List.append_nil, content_nil, List.length_nil] at hsearch
  unfold findReferenceLocationEnd findReferenceLocation1
  obtain ⟨a, r, c, rfl, hname, -⟩ | ⟨a, c, rfl, ha, hc, hresult⟩ := hsearch
  · exact absurd hname (hother r (by simp))
  · refine ⟨a, c, rfl, fun r hr => ?_, fun r hr => ?_, by rw [hresult]⟩
    · exact (compareName_false (hother r (by simp [hr]))).1.mp (ha r hr)
    · exact (compareName_false (hother r (by simp [hr]))).2.mp (hc r hr)

end GitCore.Refs
