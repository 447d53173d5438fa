import Mathlib.Tactic

/-!
# Text for a terminal

Bytes of several origins on their way to a terminal. `Complete` text has no control character but
tabs, newlines and the escape characters of whole control sequences, each from one origin that
may send it.
-/

namespace GitCore.Terminal

def isCntrl (c : UInt8) : Bool := c < 32 || c = 127

def isDigit (c : UInt8) : Bool := 48 ≤ c && c ≤ 57

/-- What stands between `ESC [` and the final letter. -/
def isParam (c : UInt8) : Bool := isDigit c || c = 59

def IsPlain (c : UInt8) : Prop := isCntrl c = false ∨ c = 9 ∨ c = 10

variable {O : Type*}

def escapeSequence (params : List UInt8) (final : UInt8) : List UInt8 :=
  27 :: 91 :: params ++ [final]

def tagged (origin : O) (bytes : List UInt8) : List (O × UInt8) :=
  bytes.map (origin, ·)

@[simp]
lemma tagged_nil (origin : O) : tagged origin [] = [] := rfl

@[simp]
lemma tagged_cons (origin : O) (c : UInt8) (bytes : List UInt8) :
    tagged origin (c :: bytes) = (origin, c) :: tagged origin bytes := rfl

@[simp]
lemma tagged_append (origin : O) (bytes bytes' : List UInt8) :
    tagged origin (bytes ++ bytes') = tagged origin bytes ++ tagged origin bytes' :=
  List.map_append

inductive Complete (allowed : O → UInt8 → Prop) : List (O × UInt8) → Prop
  | nil : Complete allowed []
  | plain {origin : O} {c : UInt8} {rest : List (O × UInt8)} :
    IsPlain c → Complete allowed rest → Complete allowed ((origin, c) :: rest)
  | escape {origin : O} {params : List UInt8} {final : UInt8} {rest : List (O × UInt8)} :
    (∀ p ∈ params, isParam p) → allowed origin final → Complete allowed rest →
      Complete allowed (tagged origin (escapeSequence params final) ++ rest)

variable {allowed : O → UInt8 → Prop} {text text' : List (O × UInt8)}

lemma Complete.append (h : Complete allowed text) (h' : Complete allowed text') :
    Complete allowed (text ++ text') := by
  induction h with
  | nil => exact h'
  | plain hc _ ih => exact .plain hc ih
  | escape hparams hfinal _ ih =>
    rw [List.append_assoc]
    exact .escape hparams hfinal ih

lemma complete_plain {origin : O} {bytes : List UInt8} (h : ∀ c ∈ bytes, IsPlain c) :
    Complete allowed (tagged origin bytes) := by
  induction bytes with
  | nil => exact .nil
  | cons c bytes ih =>
    rw [tagged_cons]
    exact .plain (h c (by simp)) (ih fun d hd => h d (by simp [hd]))

lemma complete_sequence {origin : O} {params : List UInt8} {final : UInt8} (h : ∀ p ∈ params, isParam p)
    (hfinal : allowed origin final) : Complete allowed (tagged origin (escapeSequence params final)) := by
  simpa using Complete.escape h hfinal .nil

lemma isPlain_of_isParam {c : UInt8} (h : isParam c = true) : IsPlain c := by
  refine .inl ?_
  simp only [isParam, isDigit, isCntrl, Bool.or_eq_true, Bool.and_eq_true, decide_eq_true_eq,
    Bool.or_eq_false_iff, decide_eq_false_iff_not, UInt8.le_iff_toNat_le, UInt8.lt_iff_toNat_lt,
    ← UInt8.toNat_inj] at h ⊢
  have : (48 : UInt8).toNat = 48 ∧ (57 : UInt8).toNat = 57 ∧ (59 : UInt8).toNat = 59 ∧
    (32 : UInt8).toNat = 32 ∧ (127 : UInt8).toNat = 127 := by decide
  omega

lemma Complete.bytes (h : Complete allowed text)
    (hallowed : ∀ origin final, allowed origin final → IsPlain final) {origin : O} {c : UInt8}
    (hc : (origin, c) ∈ text) : IsPlain c ∨ c = 27 := by
  induction h with
  | nil => simp at hc
  | plain hplain _ ih =>
    rcases List.mem_cons.mp hc with hc | hc
    · obtain ⟨-, rfl⟩ := Prod.mk.inj hc
      exact .inl hplain
    · exact ih hc
  | @escape origin' params final rest hparams hfinal _ ih =>
    rcases List.mem_append.mp hc with hc | hc
    · obtain ⟨d, hd, heq⟩ := List.mem_map.mp hc
      obtain ⟨-, rfl⟩ := Prod.mk.inj heq
      simp only [escapeSequence, List.cons_append, List.mem_cons, List.mem_append, List.not_mem_nil, or_false] at hd
      rcases hd with rfl | rfl | hd | rfl
      · exact .inr rfl
      · exact .inl (.inl (by decide))
      · exact .inl (isPlain_of_isParam (hparams d hd))
      · exact .inl (hallowed origin' d hfinal)
    · exact ih hc

end GitCore.Terminal
