import GitCore.Ewah.Runs

/-!
# What the operations append

Each operation on a bitmap is one on the words that its runs stand for: words are appended, or the
last word gets one more bit.
-/

namespace GitCore.Ewah

variable {self : EwahBitmap} {n : Nat} {words : List Eword}

lemma takeBit_holds {runs : List Run} {last : Run} (h : Holds self n runs last) (v : Bool) :
    ∃ last', Holds (if rlwGetLiteralWords self.marker = 0 ∧ rlwGetRunningLen self.marker = 0 then
        self.setMarker (rlwSetRunBit self.marker v) else self) n runs last' ∧ last'.words = last.words ∧
      rlwGetLiteralWords last'.marker = rlwGetLiteralWords last.marker ∧
      rlwGetRunningLen last'.marker = rlwGetRunningLen last.marker := by
  rw [h.marker]
  split
  · rename_i hempty
    have hnil := literals_eq_nil hempty.1
    have hrun : (rlwGetRunningLen last.marker).toNat = 0 := by rw [hempty.2]; rfl
    refine ⟨_, h.setMarker (rlwGetLiteralWords_setRunBit _ v), ?_, rlwGetLiteralWords_setRunBit _ v,
      rlwGetRunningLen_setRunBit _ v⟩
    rw [Run.words, Run.words]
    dsimp only [Run.withMarker]
    rw [rlwGetRunningLen_setRunBit, hrun]
    rfl
  · exact ⟨last, h, rfl, rfl, rfl⟩

lemma addEmptyWord_stores (h : Encodes self n words) (v : Bool) :
    Stores (addEmptyWord self v).1 n (words ++ [fillWord v]) := by
  obtain ⟨runs, last, hholds, rfl⟩ := h
  obtain ⟨last₁, htaken, hwords₁, hlits₁, hlen₁⟩ := takeBit_holds hholds v
  unfold addEmptyWord
  dsimp only
  rw [htaken.marker, hholds.marker, ← hlits₁, ← hlen₁, ← hwords₁]
  rw [hholds.marker, ← hlits₁, ← hlen₁] at htaken
  split
  · rename_i hroom
    obtain ⟨hlits, hbit, hlt⟩ := hroom
    have hlt' : (rlwGetRunningLen last₁.marker).toNat < 2 ^ 32 - 1 := by
      rw [← toNat_largestRunning]
      exact hlt
    have hnat : (rlwGetRunningLen last₁.marker + 1).toNat = (rlwGetRunningLen last₁.marker).toNat + 1 := by
      rw [BitVec.toNat_add, show (1 : Eword).toNat = 1 from rfl, Nat.mod_eq_of_lt (by omega)]
    have hset := htaken.setMarker
      (rlwGetLiteralWords_setRunningLen last₁.marker (rlwGetRunningLen last₁.marker + 1))
    have hwords := words_run (literals_eq_nil hlits) (l := rlwGetRunningLen last₁.marker + 1) (by omega)
      (rlwGetLiteralWords_setRunningLen _ _)
    refine ⟨runs, _, hset, ?_, Or.inr ?_⟩
    · rw [hwords, hnat, hbit, words_of_no_literals (literals_eq_nil hlits) hbit, List.replicate_succ',
        List.append_assoc]
    · rw [hwords, hnat]
      exact List.ne_nil_of_length_pos (by simp)
  · have hpush := htaken.push
    rw [hpush.marker]
    have hbit := hpush.setMarker (rlwGetLiteralWords_setRunBit Run.empty.marker v)
    rw [hbit.marker]
    have hset := hbit.setMarker (rlwGetLiteralWords_setRunningLen _ 1)
    have hwords := words_run (r := Run.empty.withMarker _ (rlwGetLiteralWords_setRunBit Run.empty.marker v)) rfl
      (l := 1) (by decide) (rlwGetLiteralWords_setRunningLen _ _)
    have hrunBit : rlwGetRunBit (Run.empty.withMarker _ (rlwGetLiteralWords_setRunBit Run.empty.marker v)).marker = v :=
      rlwGetRunBit_setRunBit _ v
    rw [hrunBit] at hwords
    refine ⟨_, _, hset, ?_, Or.inr ?_⟩
    · rw [hwords, ← decode_push runs last₁, words_empty, List.append_nil]
      rfl
    · rw [hwords]
      exact List.cons_ne_nil _ _

theorem ewahAddEmptyWords_stores (h : Stores self n words) (v : Bool) (number : Nat) :
    Stores (ewahAddEmptyWords self v number).1 (n + number * bitsInEword)
      (words ++ List.replicate number (fillWord v)) := by
  obtain ⟨runs, last, hholds, hwords, hlast⟩ := h
  unfold ewahAddEmptyWords
  split
  · rename_i hzero
    rw [hzero, List.replicate_zero, List.append_nil, Nat.zero_mul, Nat.add_zero]
    exact ⟨runs, last, hholds, hwords, hlast⟩
  · rename_i hpos
    rw [hholds.bitSize]
    have hencodes : Encodes self n words := ⟨runs, last, hholds, hwords⟩
    exact addEmptyWords_stores (hencodes.withBitSize _) v (Nat.pos_of_ne_zero hpos)

theorem ewahAdd_stores (h : Stores self n words) (word : Eword) :
    Stores (ewahAdd self word).1 (n + bitsInEword) (words ++ [word]) := by
  obtain ⟨runs, last, hholds, hwords, -⟩ := h
  have hencodes : Encodes { self with bitSize := self.bitSize + bitsInEword } (n + bitsInEword) words := by
    rw [hholds.bitSize]
    exact @Encodes.withBitSize self _ _ ⟨runs, last, hholds, hwords⟩ _
  unfold ewahAdd
  dsimp only
  split
  · rename_i hzero
    rw [hzero]
    exact addEmptyWord_stores hencodes false
  · split
    · rename_i hones
      rw [hones]
      exact addEmptyWord_stores hencodes true
    · exact addLiteral_stores hencodes word

lemma ewahSet_stores_far (h : Stores self n words) {i : Nat}
    (hdist : divRoundUp n bitsInEword < divRoundUp (i + 1) bitsInEword) :
    Stores (ewahSet self i) (i + 1) (words ++
      List.replicate (divRoundUp (i + 1) bitsInEword - divRoundUp n bitsInEword - 1) (0 : Eword) ++ [(1 : Eword) <<< (i % bitsInEword)]) := by
  obtain ⟨runs, last, hholds, hwords, -⟩ := h
  have hencodes : Encodes { self with bitSize := i + 1 } (i + 1) words :=
    @Encodes.withBitSize self _ _ ⟨runs, last, hholds, hwords⟩ _
  unfold ewahSet
  dsimp only
  rw [hholds.bitSize, if_pos (by omega)]
  split
  · exact addLiteral_stores (addEmptyWords_stores hencodes false (by omega)).encodes _
  · rename_i hone
    have hnear : divRoundUp (i + 1) bitsInEword - divRoundUp n bitsInEword - 1 = 0 := by omega
    rw [hnear, List.replicate_zero, List.append_nil]
    exact addLiteral_stores hencodes _

lemma Holds.setLast {runs : List Run} {last : Run} (h : Holds self n runs last) {lits : List Eword} {w : Eword}
    (hlits : last.literals = lits ++ [w]) (x : Eword) :
    Holds { self with buffer := self.buffer.dropLast ++ [x] } n runs
      ⟨last.marker, lits ++ [x], by rw [← last.counted, hlits, List.length_append, List.length_append]; rfl⟩ := by
  refine ⟨?_, h.rlw, h.bitSize⟩
  have hbuffer : self.buffer = (encode runs ++ last.marker :: lits) ++ [w] := by
    rw [h.buffer, hlits, List.append_assoc, List.cons_append]
  change self.buffer.dropLast ++ [x] = _
  rw [hbuffer, List.dropLast_concat, List.append_assoc, List.cons_append]

lemma Holds.dropLiteral {runs : List Run} {last : Run} (h : Holds self n runs last) {lits : List Eword} {w : Eword}
    (hlits : last.literals = lits ++ [w]) :
    Encodes (({ self with buffer := self.buffer.dropLast } : EwahBitmap).setMarker
      (rlwSetLiteralWords last.marker (rlwGetLiteralWords last.marker - 1))) n (decode runs ++
        (List.replicate (rlwGetRunningLen last.marker).toNat (fillWord (rlwGetRunBit last.marker)) ++ lits)) := by
  have hcount := last.counted
  have hlt := literalWords_lt last.marker
  rw [hlits, List.length_append, List.length_singleton] at hcount
  have hnat : (rlwGetLiteralWords last.marker - 1).toNat = lits.length := by
    rw [BitVec.toNat_sub_of_le (BitVec.le_def.mpr (by rw [← hcount]; exact Nat.le_add_left _ _)), ← hcount]
    rfl
  have hset : rlwGetLiteralWords (rlwSetLiteralWords last.marker (rlwGetLiteralWords last.marker - 1)) =
      rlwGetLiteralWords last.marker - 1 :=
    rlwGetLiteralWords_setLiteralWords _ (by omega)
  have hbuffer : self.buffer = (encode runs ++ last.marker :: lits) ++ [w] := by
    rw [h.buffer, hlits, List.append_assoc, List.cons_append]
  refine ⟨runs, ⟨rlwSetLiteralWords last.marker (rlwGetLiteralWords last.marker - 1), lits, by rw [hset, hnat]⟩,
    ⟨?_, h.rlw, h.bitSize⟩, ?_⟩
  · change self.buffer.dropLast.set self.rlw _ = _
    rw [hbuffer, List.dropLast_concat, h.rlw, List.set_append_right _ _ (Nat.le_refl _), Nat.sub_self]
    rfl
  · rw [Run.words]
    dsimp only
    rw [rlwGetRunningLen_setLiteralWords, rlwGetRunBit_setLiteralWords]

lemma ewahSet_stores_near {init : List Eword} {w : Eword} (h : Stores self n (init ++ [w])) {i : Nat}
    (hdist : divRoundUp (i + 1) bitsInEword ≤ divRoundUp n bitsInEword) (hw : w ≠ ~~~0) :
    Stores (ewahSet self i) (i + 1) (init ++ [w ||| (1 : Eword) <<< (i % bitsInEword)]) := by
  obtain ⟨runs, last, hholds, hwords, hlast⟩ := h
  have hlast := hlast.resolve_left (by simp)
  have hself : Holds { self with bitSize := i + 1 } (i + 1) runs last := ⟨hholds.buffer, hholds.rlw, rfl⟩
  unfold ewahSet
  dsimp only
  rw [hholds.bitSize, if_neg (by omega), hself.marker]
  split
  · rename_i hzero
    have hnil := literals_eq_nil hzero
    have hrun := words_of_no_literals hnil rfl
    obtain ⟨k, hk⟩ : ∃ k, (rlwGetRunningLen last.marker).toNat = k + 1 := by
      refine Nat.exists_eq_succ_of_ne_zero fun hlen => hlast ?_
      rw [hrun, hlen, List.replicate_zero]
    rw [hrun, hk, List.replicate_succ', ← List.append_assoc] at hwords
    obtain ⟨hinit, hfill⟩ := List.append_inj' hwords rfl
    have hfill : fillWord (rlwGetRunBit last.marker) = w := List.singleton_inj.mp hfill
    have hbit : rlwGetRunBit last.marker = false := by
      rw [Bool.eq_false_iff]
      intro hb
      rw [hb] at hfill
      exact hw hfill.symm
    have hw0 : w = 0 := by rw [← hfill, hbit]; rfl
    have hnat : (rlwGetRunningLen last.marker - 1).toNat = k := by
      rw [BitVec.toNat_sub_of_le (BitVec.le_def.mpr (by rw [hk]; exact Nat.le_add_left _ _)), hk]
      rfl
    have hlt := runningLen_lt last.marker
    have hset := hself.setMarker (rlwGetLiteralWords_setRunningLen last.marker (rlwGetRunningLen last.marker - 1))
    have hencodes : Encodes (({ self with bitSize := i + 1 } : EwahBitmap).setMarker
        (rlwSetRunningLen last.marker (rlwGetRunningLen last.marker - 1))) (i + 1) init := by
      refine ⟨runs, _, hset, ?_⟩
      rw [words_run hnil (by omega), hnat, hinit]
    rw [hw0, show (0 : Eword) = 0#64 from rfl, BitVec.zero_or]
    exact addLiteral_stores hencodes _
  · rename_i hliteral
    have hne : last.literals ≠ [] := by
      intro hnil
      have hcount := last.counted
      rw [hnil, List.length_nil] at hcount
      exact hliteral (BitVec.eq_of_toNat_eq hcount.symm)
    obtain ⟨lits, w', hlits⟩ : ∃ lits w', last.literals = lits ++ [w'] :=
      ⟨_, _, (List.dropLast_append_getLast hne).symm⟩
    rw [Run.words, hlits, ← List.append_assoc, ← List.append_assoc] at hwords
    obtain ⟨hinit, hlastWord⟩ := List.append_inj' hwords rfl
    obtain rfl : w' = w := List.singleton_inj.mp hlastWord
    rw [List.append_assoc] at hinit
    have hgetLast : self.buffer.getLastD 0 = w' := by
      rw [hholds.buffer, hlits, ← List.cons_append, ← List.append_assoc, List.getLastD_concat]
    rw [hgetLast]
    have hset := hself.setLast hlits (w' ||| (1 : Eword) <<< (i % bitsInEword))
    split
    · rename_i hones
      rw [hones]
      rw [hones] at hset
      have hdrop := @Holds.dropLiteral _ _ _ _ hset lits (~~~0) rfl
      rw [hinit] at hdrop
      have hmarker : ({ self with
          buffer := (self.buffer.dropLast ++ [~~~0]).dropLast, bitSize := i + 1 } : EwahBitmap).marker = last.marker := by
        rw [EwahBitmap.marker]
        dsimp only
        rw [List.dropLast_concat, hholds.buffer, hlits, ← List.cons_append, ← List.append_assoc, List.dropLast_concat,
          hholds.rlw, List.getD_eq_getElem?_getD, List.getElem?_append_right (Nat.le_refl _), Nat.sub_self]
        rfl
      rw [hmarker]
      exact addEmptyWord_stores hdrop true
    · refine ⟨runs, _, hset, ?_, Or.inr ?_⟩
      · rw [Run.words]
        dsimp only
        rw [← hinit]
        simp only [List.append_assoc]
      · simp [Run.words]

end GitCore.Ewah
