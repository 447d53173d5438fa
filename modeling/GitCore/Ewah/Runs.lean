import GitCore.Ewah.Marker

/-!
# The runs in the buffer

The buffer is a sequence of runs, each a run-length word with the literal words that it counts. The
operations append words to what the runs stand for.
-/

namespace GitCore.Ewah

structure Run where
  marker : Eword
  literals : List Eword
  counted : literals.length = (rlwGetLiteralWords marker).toNat

def fillWord (b : Bool) : Eword := if b then ~~~0 else 0

def Run.words (r : Run) : List Eword :=
  List.replicate (rlwGetRunningLen r.marker).toNat (fillWord (rlwGetRunBit r.marker)) ++ r.literals

def encode (runs : List Run) : List Eword := runs.flatMap fun r => r.marker :: r.literals

def decode (runs : List Run) : List Eword := runs.flatMap Run.words

def Run.empty : Run := ⟨0, [], by decide⟩

def Run.withMarker (r : Run) (word : Eword) (h : rlwGetLiteralWords word = rlwGetLiteralWords r.marker) : Run :=
  ⟨word, r.literals, by rw [r.counted, h]⟩

lemma words_empty : Run.empty.words = [] := by
  have hlen : (rlwGetRunningLen Run.empty.marker).toNat = 0 := by decide
  rw [Run.words, hlen]
  rfl

lemma words_of_no_literals {r : Run} (h : r.literals = []) {b : Bool} (hb : rlwGetRunBit r.marker = b) :
    r.words = List.replicate (rlwGetRunningLen r.marker).toNat (fillWord b) := by
  rw [Run.words, h, hb, List.append_nil]

lemma literals_eq_nil {r : Run} (h : rlwGetLiteralWords r.marker = 0) : r.literals = [] := by
  refine List.eq_nil_of_length_eq_zero ?_
  rw [r.counted, h]
  rfl

/-- The buffer is a sequence of runs, `rlw` is at the last one and `n` bits are counted. -/
structure Holds (bitmap : EwahBitmap) (n : Nat) (runs : List Run) (last : Run) : Prop where
  buffer : bitmap.buffer = encode runs ++ last.marker :: last.literals
  rlw : bitmap.rlw = (encode runs).length
  bitSize : bitmap.bitSize = n

section Holds

variable {self : EwahBitmap} {n : Nat} {runs : List Run} {last : Run}

lemma Holds.marker (h : Holds self n runs last) : self.marker = last.marker := by
  rw [EwahBitmap.marker, h.buffer, h.rlw, List.getD_eq_getElem?_getD, List.getElem?_append_right (Nat.le_refl _),
    Nat.sub_self]
  rfl

lemma Holds.setMarker (h : Holds self n runs last) {word : Eword}
    (hword : rlwGetLiteralWords word = rlwGetLiteralWords last.marker) :
    Holds (self.setMarker word) n runs (last.withMarker word hword) := by
  refine ⟨?_, h.rlw, h.bitSize⟩
  rw [EwahBitmap.setMarker, h.buffer, h.rlw, List.set_append_right _ _ (Nat.le_refl _), Nat.sub_self]
  rfl

lemma Holds.push (h : Holds self n runs last) : Holds (bufferPushRlw self 0) n (runs ++ [last]) Run.empty := by
  have hencode : encode (runs ++ [last]) = self.buffer := by
    rw [h.buffer, encode, List.flatMap_append, List.flatMap_singleton]
    rfl
  refine ⟨?_, ?_, h.bitSize⟩
  · rw [hencode]
    rfl
  · change (self.buffer ++ [0]).length - 1 = _
    rw [hencode, List.length_append, List.length_singleton, Nat.add_sub_cancel]

lemma Holds.pushLiteral (h : Holds self n runs last) {word data : Eword}
    (hword : (rlwGetLiteralWords word).toNat = last.literals.length + 1) :
    Holds (bufferPush (self.setMarker word) data) n runs
      ⟨word, last.literals ++ [data], by rw [List.length_append, List.length_singleton, hword]⟩ := by
  refine ⟨?_, h.rlw, h.bitSize⟩
  change self.buffer.set self.rlw word ++ [data] = _
  rw [h.buffer, h.rlw, List.set_append_right _ _ (Nat.le_refl _), Nat.sub_self, List.set_cons_zero,
    List.append_assoc, List.cons_append]

lemma decode_push (runs : List Run) (last : Run) :
    decode (runs ++ [last]) ++ Run.empty.words = decode runs ++ last.words := by
  rw [words_empty, List.append_nil, decode, List.flatMap_append, List.flatMap_singleton]
  rfl

end Holds

def Encodes (self : EwahBitmap) (n : Nat) (words : List Eword) : Prop :=
  ∃ runs last, Holds self n runs last ∧ decode runs ++ last.words = words

/-- The buffer is a sequence of runs, and `bit_size` counts their words. -/
def WellFormed (self : EwahBitmap) : Prop :=
  ∃ words, Encodes self self.bitSize words ∧ divRoundUp self.bitSize bitsInEword = words.length

def Stores (self : EwahBitmap) (n : Nat) (words : List Eword) : Prop :=
  ∃ runs last, Holds self n runs last ∧ decode runs ++ last.words = words ∧ (words = [] ∨ last.words ≠ [])

lemma Stores.encodes {self : EwahBitmap} {n : Nat} {words : List Eword} (h : Stores self n words) :
    Encodes self n words := by
  obtain ⟨runs, last, hholds, hwords, -⟩ := h
  exact ⟨runs, last, hholds, hwords⟩

lemma Encodes.withBitSize {self : EwahBitmap} {n : Nat} {words : List Eword} (h : Encodes self n words) (k : Nat) :
    Encodes { self with bitSize := k } k words := by
  obtain ⟨runs, last, hholds, hwords⟩ := h
  exact ⟨runs, last, ⟨hholds.buffer, hholds.rlw, rfl⟩, hwords⟩

lemma stores_ewahNew : Stores ewahNew 0 [] := by
  refine ⟨[], Run.empty, ⟨rfl, rfl, rfl⟩, ?_, Or.inl rfl⟩
  rw [words_empty]
  rfl

lemma toNat_largestRunning : rlwLargestRunningCount.toNat = 2 ^ 32 - 1 := by decide

lemma toNat_largestLiteral : rlwLargestLiteralCount.toNat = 2 ^ 31 - 1 := by decide

lemma words_run {r : Run} (h : r.literals = []) {l : Eword} (hl : l.toNat < 2 ^ 32)
    (hword : rlwGetLiteralWords (rlwSetRunningLen r.marker l) = rlwGetLiteralWords r.marker) :
    (r.withMarker (rlwSetRunningLen r.marker l) hword).words =
      List.replicate l.toNat (fillWord (rlwGetRunBit r.marker)) := by
  rw [words_of_no_literals (b := rlwGetRunBit r.marker) (by exact h) (rlwGetRunBit_setRunningLen _ _)]
  change List.replicate (rlwGetRunningLen (rlwSetRunningLen r.marker l)).toNat _ = _
  rw [rlwGetRunningLen_setRunningLen _ hl]

section Append

variable {self : EwahBitmap} {n : Nat} {words : List Eword}

lemma addLiteral_stores (h : Encodes self n words) (newData : Eword) :
    Stores (addLiteral self newData).1 n (words ++ [newData]) := by
  obtain ⟨runs, last, hholds, rfl⟩ := h
  unfold addLiteral
  dsimp only
  rw [hholds.marker]
  split
  · have hpush := hholds.push
    rw [hpush.marker]
    have hone : rlwGetLiteralWords (rlwSetLiteralWords Run.empty.marker 1) = 1 :=
      rlwGetLiteralWords_setLiteralWords _ (by decide)
    have hlit := @Holds.pushLiteral _ _ _ _ hpush (rlwSetLiteralWords Run.empty.marker 1) newData
      (by rw [hone, show Run.empty.literals = [] from rfl]; rfl)
    refine ⟨_, _, hlit, ?_, Or.inr ?_⟩
    · have hlen : (rlwGetRunningLen (rlwSetLiteralWords Run.empty.marker 1)).toNat = 0 := by
        rw [rlwGetRunningLen_setLiteralWords]
        decide
      rw [← decode_push runs last, words_empty, List.append_nil, Run.words, hlen]
      rfl
    · simp [Run.words]
  · rename_i hfull
    have hlt : (rlwGetLiteralWords last.marker).toNat < 2 ^ 31 - 1 := by
      rw [← toNat_largestLiteral]
      exact BitVec.not_le.mp hfull
    have hnat : (rlwGetLiteralWords last.marker + 1).toNat = (rlwGetLiteralWords last.marker).toNat + 1 := by
      rw [BitVec.toNat_add, show (1 : Eword).toNat = 1 from rfl, Nat.mod_eq_of_lt (by omega)]
    have hnext : rlwGetLiteralWords (rlwSetLiteralWords last.marker (rlwGetLiteralWords last.marker + 1)) =
        rlwGetLiteralWords last.marker + 1 :=
      rlwGetLiteralWords_setLiteralWords _ (by omega)
    have hlit := @Holds.pushLiteral _ _ _ _ hholds
      (rlwSetLiteralWords last.marker (rlwGetLiteralWords last.marker + 1)) newData
      (by rw [hnext, hnat, last.counted])
    refine ⟨_, _, hlit, ?_, Or.inr ?_⟩
    · rw [Run.words, Run.words]
      dsimp only
      rw [rlwGetRunningLen_setLiteralWords, rlwGetRunBit_setLiteralWords]
      simp only [List.append_assoc]
    · simp [Run.words]

lemma openRun_holds {runs : List Run} {last : Run} (h : Holds self n runs last) (v : Bool) :
    ∃ runs' last', Holds (openRun self v).1 n runs' last' ∧
      decode runs' ++ last'.words = decode runs ++ last.words ∧ last'.literals = [] ∧ rlwGetRunBit last'.marker = v := by
  unfold openRun
  rw [h.marker]
  split
  · rename_i hempty
    obtain ⟨hrun, hlits⟩ : (rlwGetRunningLen last.marker).toNat = 0 ∧ (rlwGetLiteralWords last.marker).toNat = 0 := by
      have hsize := congrArg BitVec.toNat hempty.2
      have hrun := runningLen_lt last.marker
      have hlits := literalWords_lt last.marker
      rw [rlwSize, BitVec.toNat_add, Nat.mod_eq_of_lt (by omega), show (0 : Eword).toNat = 0 from rfl] at hsize
      omega
    have hnil : last.literals = [] := List.eq_nil_of_length_eq_zero (last.counted.trans hlits)
    refine ⟨runs, _, h.setMarker (rlwGetLiteralWords_setRunBit _ v), ?_, hnil, rlwGetRunBit_setRunBit _ v⟩
    rw [Run.words, Run.words]
    dsimp only [Run.withMarker]
    rw [rlwGetRunningLen_setRunBit, hrun]
    rfl
  · split
    · have hpush := h.push
      dsimp only
      rw [hpush.marker]
      cases v with
      | false => exact ⟨_, _, hpush, decode_push runs last, rfl, by decide⟩
      | true =>
        refine ⟨_, _, hpush.setMarker (rlwGetLiteralWords_setRunBit _ true), ?_, rfl, rlwGetRunBit_setRunBit _ true⟩
        rw [← decode_push runs last, words_empty]
        congr 1
    · rename_i hsame
      push Not at hsame
      exact ⟨runs, last, h, rfl, literals_eq_nil hsame.1, hsame.2⟩

lemma pushRun_holds {runs : List Run} {last : Run} (h : Holds self n runs last) (v : Bool) {l : Eword} (hl : l.toNat < 2 ^ 32) :
    let pushed := bufferPushRlw self 0
    let pushed := if v then pushed.setMarker (rlwSetRunBit pushed.marker v) else pushed
    ∃ runs' last', Holds (pushed.setMarker (rlwSetRunningLen pushed.marker l)) n runs' last' ∧
      decode runs' ++ last'.words = decode runs ++ last.words ++ List.replicate l.toNat (fillWord v) ∧
      last'.words = List.replicate l.toNat (fillWord v) := by
  have hpush := h.push
  obtain ⟨opened, hopened, hnil, hbit⟩ : ∃ opened : Run,
      Holds (if v then (bufferPushRlw self 0).setMarker (rlwSetRunBit (bufferPushRlw self 0).marker v)
        else bufferPushRlw self 0) n (runs ++ [last]) opened ∧ opened.literals = [] ∧ rlwGetRunBit opened.marker = v := by
    rw [hpush.marker]
    cases v with
    | false => exact ⟨_, hpush, rfl, by decide⟩
    | true => exact ⟨_, hpush.setMarker (rlwGetLiteralWords_setRunBit _ true), rfl, rlwGetRunBit_setRunBit _ true⟩
  dsimp only
  rw [hopened.marker]
  have hset := hopened.setMarker (rlwGetLiteralWords_setRunningLen opened.marker l)
  refine ⟨_, _, hset, ?_, ?_⟩
  · rw [words_run hnil hl, hbit, ← decode_push runs last, words_empty, List.append_nil]
  · rw [words_run hnil hl, hbit]

lemma addFullRuns_of_lt {v : Bool} {number added : Nat} (h : number < rlwLargestRunningCount.toNat) :
    addFullRuns self v number added = (self, number, added) := by
  rw [addFullRuns, dif_neg (Nat.not_le.mpr h)]

lemma addFullRuns_add (self : EwahBitmap) (v : Bool) (number added : Nat) :
    addFullRuns self v (rlwLargestRunningCount.toNat + number) added =
      (let pushed := bufferPushRlw self 0
      let pushed := if v then pushed.setMarker (rlwSetRunBit pushed.marker v) else pushed
      addFullRuns (pushed.setMarker (rlwSetRunningLen pushed.marker rlwLargestRunningCount)) v number (added + 1)) := by
  rw [addFullRuns, dif_pos (Nat.le_add_right _ _), Nat.add_sub_cancel_left]

lemma addFullRuns_holds {runs : List Run} {last : Run} (h : Holds self n runs last) (hlast : last.words ≠ [])
    (v : Bool) (number added : Nat) :
    ∃ runs' last', Holds (addFullRuns self v number added).1 n runs' last' ∧ last'.words ≠ [] ∧
      (addFullRuns self v number added).2.1 < 2 ^ 32 ∧
      decode runs' ++ last'.words ++ List.replicate (addFullRuns self v number added).2.1 (fillWord v) =
        decode runs ++ last.words ++ List.replicate number (fillWord v) := by
  induction number using Nat.strong_induction_on generalizing self runs last added with
  | _ number ih =>
    have hpos : 0 < rlwLargestRunningCount.toNat := by decide
    rcases Nat.lt_or_ge number rlwLargestRunningCount.toNat with hlt | hle
    · rw [addFullRuns_of_lt hlt]
      rw [toNat_largestRunning] at hlt
      exact ⟨runs, last, h, hlast, by change number < 2 ^ 32; omega, rfl⟩
    · obtain ⟨rest, rfl⟩ := Nat.exists_eq_add_of_le hle
      obtain ⟨runs₁, last₁, hholds, hwords, hrun⟩ := pushRun_holds h v (l := rlwLargestRunningCount) (by decide)
      have hlast₁ : last₁.words ≠ [] := by
        rw [hrun]
        exact List.ne_nil_of_length_pos (by rwa [List.length_replicate])
      obtain ⟨runs', last', hholds', hlast', hlt, hwords'⟩ := ih rest (by omega) hholds hlast₁ (added + 1)
      rw [addFullRuns_add]
      refine ⟨runs', last', hholds', hlast', hlt, ?_⟩
      rw [hwords', hwords, List.append_assoc, List.replicate_append_replicate]

lemma addEmptyWords_stores (h : Encodes self n words) (v : Bool) {number : Nat} (hnumber : 0 < number) :
    Stores (addEmptyWords self v number).1 n (words ++ List.replicate number (fillWord v)) := by
  obtain ⟨runs, last, hholds, rfl⟩ := h
  obtain ⟨runs₁, last₁, hopened, hwords₁, hnil, hbit⟩ := openRun_holds hholds v
  have hrunlen := runningLen_lt last₁.marker
  set runlen := rlwGetRunningLen last₁.marker with hrunlenDef
  set canAdd := min number (rlwLargestRunningCount - runlen).toNat with hcanAddDef
  have hroom : (rlwLargestRunningCount - runlen).toNat = 2 ^ 32 - 1 - runlen.toNat := by
    rw [BitVec.toNat_sub_of_le (BitVec.le_def.mpr (by rw [toNat_largestRunning]; omega)), toNat_largestRunning]
  have hsum : (runlen + BitVec.ofNat 64 canAdd).toNat = runlen.toNat + canAdd := by
    rw [BitVec.toNat_add, BitVec.toNat_ofNat, Nat.mod_eq_of_lt (a := canAdd) (by omega), Nat.mod_eq_of_lt (by omega)]
  have hsumlt : (runlen + BitVec.ofNat 64 canAdd).toNat < 2 ^ 32 := by omega
  have hfirst := hopened.setMarker (rlwGetLiteralWords_setRunningLen last₁.marker (runlen + BitVec.ofNat 64 canAdd))
  set last₂ := last₁.withMarker (rlwSetRunningLen last₁.marker (runlen + BitVec.ofNat 64 canAdd))
    (rlwGetLiteralWords_setRunningLen _ _) with hlast₂
  have hwords₂ : decode runs₁ ++ last₂.words ++ List.replicate (number - canAdd) (fillWord v) =
      decode runs ++ last.words ++ List.replicate number (fillWord v) := by
    have hsplit : List.replicate canAdd (fillWord v) ++ List.replicate (number - canAdd) (fillWord v) =
        List.replicate number (fillWord v) := by
      rw [List.replicate_append_replicate, Nat.add_sub_cancel' (Nat.min_le_left _ _)]
    rw [hlast₂, words_run hnil hsumlt, hbit, hsum, ← List.replicate_append_replicate, ← hwords₁,
      words_of_no_literals hnil hbit, List.append_assoc, List.append_assoc, hsplit, List.append_assoc]
  have hlast₂ne : last₂.words ≠ [] := by
    rw [hlast₂, words_run hnil hsumlt, hsum]
    refine List.ne_nil_of_length_pos ?_
    rw [List.length_replicate]
    omega
  obtain ⟨runs₃, last₃, hholds₃, hlast₃, hlt₃, hwords₃⟩ :=
    addFullRuns_holds hfirst hlast₂ne v (number - canAdd) (openRun self v).2
  unfold addEmptyWords
  dsimp only
  rw [hopened.marker]
  split
  · have hnat : (BitVec.ofNat 64 (addFullRuns ((openRun self v).1.setMarker
        (rlwSetRunningLen last₁.marker (runlen + BitVec.ofNat 64 canAdd))) v (number - canAdd) (openRun self v).2).2.1).toNat =
        (addFullRuns ((openRun self v).1.setMarker
        (rlwSetRunningLen last₁.marker (runlen + BitVec.ofNat 64 canAdd))) v (number - canAdd) (openRun self v).2).2.1 := by
      rw [BitVec.toNat_ofNat, Nat.mod_eq_of_lt (by omega)]
    rename_i hpos
    obtain ⟨runs₄, last₄, hholds₄, hwords₄, hrun₄⟩ := pushRun_holds hholds₃ v (hnat.trans_lt hlt₃)
    refine ⟨runs₄, last₄, hholds₄, ?_, Or.inr ?_⟩
    · rw [hwords₄, hnat, hwords₃, hwords₂]
    · rw [hrun₄, hnat]
      exact List.ne_nil_of_length_pos (by rwa [List.length_replicate])
  · rename_i hzero
    refine ⟨runs₃, last₃, hholds₃, ?_, Or.inr hlast₃⟩
    rw [← hwords₂, ← hwords₃, Nat.eq_zero_of_not_pos hzero, List.replicate_zero, List.append_nil]

end Append

end GitCore.Ewah
