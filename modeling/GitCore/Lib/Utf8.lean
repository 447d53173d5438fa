import Mathlib.Tactic

/-!
# UTF-8 texts cut into pieces

A text is valid if it encodes characters. The encoding of a character is a first byte, which tells its length, and
continuation bytes; so where a text is cut, the piece of a character before the cut can be told from its last bytes.
-/

namespace GitCore

def ValidUtf8 (bytes : List UInt8) : Prop := ∃ cs : List Char, cs.flatMap String.utf8EncodeChar = bytes

def isContinuation (b : UInt8) : Bool := b &&& 0xc0 = 0x80

def leadLength (b : UInt8) : Nat :=
  if b < 0x80 then 1
  else if b &&& 0xe0 = 0xc0 then 2
  else if b &&& 0xf0 = 0xe0 then 3
  else if b &&& 0xf8 = 0xf0 then 4
  else 0

lemma isContinuation_byte : ∀ n < 64, isContinuation (UInt8.ofNat (n + 0x80)) = true := by decide

lemma ascii_byte : ∀ n < 128, isContinuation (UInt8.ofNat n) = false ∧ leadLength (UInt8.ofNat n) = 1 := by decide

lemma lead_two_byte :
    ∀ n < 32, isContinuation (UInt8.ofNat (n + 0xc0)) = false ∧ leadLength (UInt8.ofNat (n + 0xc0)) = 2 := by decide

lemma lead_three_byte :
    ∀ n < 16, isContinuation (UInt8.ofNat (n + 0xe0)) = false ∧ leadLength (UInt8.ofNat (n + 0xe0)) = 3 := by decide

lemma lead_four_byte :
    ∀ n < 8, isContinuation (UInt8.ofNat (n + 0xf0)) = false ∧ leadLength (UInt8.ofNat (n + 0xf0)) = 4 := by decide

def IsEncoded (bytes : List UInt8) : Prop :=
  ∃ lead tail, bytes = lead :: tail ∧ isContinuation lead = false ∧ (∀ b ∈ tail, isContinuation b = true) ∧
    leadLength lead = tail.length + 1

lemma isEncoded_char (c : Char) : IsEncoded (String.utf8EncodeChar c) := by
  have htail : ∀ n, isContinuation (UInt8.ofNat (n % 0x40 + 0x80)) = true := fun n =>
    isContinuation_byte _ (Nat.mod_lt n (by decide))
  rw [String.utf8EncodeChar]
  split_ifs with h₁ h₂ h₃
  · exact ⟨_, [], rfl, (ascii_byte _ (by omega)).1, by simp, (ascii_byte _ (by omega)).2⟩
  · have hlead := lead_two_byte _ (Nat.mod_lt (c.val.toNat / 64) (by decide))
    exact ⟨_, _, rfl, hlead.1, List.forall_mem_singleton.mpr (htail _), hlead.2⟩
  · have hlead := lead_three_byte _ (Nat.mod_lt (c.val.toNat / 4096) (by decide))
    exact ⟨_, _, rfl, hlead.1, List.forall_mem_cons.mpr ⟨htail _, List.forall_mem_singleton.mpr (htail _)⟩, hlead.2⟩
  · have hlead := lead_four_byte _ (Nat.mod_lt (c.val.toNat / 262144) (by decide))
    exact ⟨_, _, rfl, hlead.1, List.forall_mem_cons.mpr ⟨htail _, List.forall_mem_cons.mpr ⟨htail _, List.forall_mem_singleton.mpr (htail _)⟩⟩, hlead.2⟩

namespace ValidUtf8

lemma nil : ValidUtf8 [] := ⟨[], rfl⟩

lemma append {x y : List UInt8} (hx : ValidUtf8 x) (hy : ValidUtf8 y) : ValidUtf8 (x ++ y) := by
  obtain ⟨cs, rfl⟩ := hx
  obtain ⟨cs', rfl⟩ := hy
  exact ⟨cs ++ cs', List.flatMap_append⟩

lemma char (c : Char) : ValidUtf8 (String.utf8EncodeChar c) := ⟨[c], by simp⟩

lemma exists_last {x : List UInt8} (h : ValidUtf8 x) (hne : x ≠ []) :
    ∃ front c, x = front ++ String.utf8EncodeChar c ∧ ValidUtf8 front := by
  obtain ⟨cs, rfl⟩ := h
  obtain rfl | ⟨front, c, rfl⟩ := List.eq_nil_or_concat cs
  · exact absurd rfl hne
  · exact ⟨front.flatMap String.utf8EncodeChar, c, by simp, front, rfl⟩

lemma split {x y : List UInt8} (h : ValidUtf8 (x ++ y)) :
    ∃ front part, x = front ++ part ∧ ValidUtf8 front ∧ ValidUtf8 (part ++ y) ∧
      (part = [] ∨ ∃ c more, String.utf8EncodeChar c = part ++ more ∧ more ≠ []) := by
  obtain ⟨cs, hcs⟩ := h
  induction cs generalizing x with
  | nil =>
    obtain ⟨rfl, rfl⟩ := List.append_eq_nil_iff.mp hcs.symm
    exact ⟨[], [], rfl, nil, nil, .inl rfl⟩
  | cons c cs ih =>
    rw [List.flatMap_cons] at hcs
    obtain ⟨rest, rfl, hrest⟩ | ⟨more, hmore, hy⟩ := List.append_eq_append_iff.mp hcs
    · obtain ⟨front, part, rfl, hfront, hpart, hcut⟩ := ih hrest
      exact ⟨String.utf8EncodeChar c ++ front, part, (List.append_assoc ..).symm, (char c).append hfront, hpart, hcut⟩
    · by_cases hempty : more = []
      · -- the cut is behind the character
        rw [hempty, List.append_nil] at hmore
        rw [hempty, List.nil_append] at hy
        exact ⟨x, [], (List.append_nil x).symm, hmore ▸ char c, ⟨cs, hy.symm⟩, .inl rfl⟩
      · exact ⟨[], x, rfl, nil, ⟨c :: cs, by rw [List.flatMap_cons, hcs]⟩, .inr ⟨c, more, hmore, hempty⟩⟩

end ValidUtf8

end GitCore
