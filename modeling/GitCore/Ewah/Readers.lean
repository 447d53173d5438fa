import GitCore.Ewah.Bits

/-!
# What the readers see

`ewah_each_bit` and the word iterator over a buffer that is a sequence of runs.
-/

namespace GitCore.Ewah

lemma encode_cons (r : Run) (runs : List Run) : encode (r :: runs) = r.marker :: (r.literals ++ encode runs) := by
  rw [encode, List.flatMap_cons, List.cons_append]
  rfl

lemma decode_cons (r : Run) (runs : List Run) : decode (r :: runs) = r.words ++ decode runs := List.flatMap_cons

lemma encode_append (a b : List Run) : encode (a ++ b) = encode a ++ encode b := List.flatMap_append

lemma length_words (r : Run) :
    r.words.length = (rlwGetRunningLen r.marker).toNat + (rlwGetLiteralWords r.marker).toNat := by
  rw [Run.words, List.length_append, List.length_replicate, r.counted]

lemma eachBitFrom_eq (before runs : List Run) (pos : Nat) :
    eachBitFrom (encode before ++ encode runs) (encode before).length pos = bitsAt pos (decode runs) := by
  induction runs generalizing before pos with
  | nil =>
    rw [eachBitFrom, dif_neg (by simp [encode])]
    rfl
  | cons r runs ih =>
    have hbuffer : encode before ++ encode (r :: runs) = encode (before ++ [r]) ++ encode runs := by
      rw [← encode_append, ← encode_append, List.append_assoc, List.singleton_append]
    have hlength : (encode (before ++ [r])).length = (encode before).length + 1 + r.literals.length := by
      rw [encode_append, encode_cons, List.length_append, List.length_cons, List.length_append]
      change _ + (r.literals.length + 0 + 1) = _
      omega
    have hinside : (encode before).length < (encode before ++ encode (r :: runs)).length := by
      rw [encode_cons, List.length_append, List.length_cons]
      omega
    have hword : (encode before ++ encode (r :: runs))[(encode before).length] = r.marker := by
      rw [List.getElem_append_right (Nat.le_refl _)]
      simp only [Nat.sub_self, encode_cons, List.getElem_cons_zero]
    have hlit : ∀ k ∈ List.range r.literals.length,
        (encode before ++ encode (r :: runs)).getD ((encode before).length + 1 + k) 0 = r.literals.getD k 0 := by
      intro k hk
      rw [List.getD_eq_getElem?_getD, List.getD_eq_getElem?_getD, List.getElem?_append_right (by omega),
        show (encode before).length + 1 + k - (encode before).length = k + 1 by omega, encode_cons,
        List.getElem?_cons_succ, List.getElem?_append_left (List.mem_range.mp hk)]
    have hliterals : ∀ base, ((List.range r.literals.length).flatMap fun k =>
        (wordBits ((encode before ++ encode (r :: runs)).getD ((encode before).length + 1 + k) 0)).map
          (base + k * bitsInEword + ·)) = bitsAt base r.literals := by
      intro base
      rw [bitsAt_flatMap]
      refine List.flatMap_congr fun k hk => ?_
      rw [hlit k hk]
    rw [eachBitFrom, dif_pos hinside, hword]
    dsimp only
    rw [← r.counted, hliterals, hbuffer, ← hlength, ih, decode_cons, bitsAt_append, length_words, Run.words,
      bitsAt_append, bitsAt_fill, List.length_replicate, Nat.add_mul, ← r.counted, Nat.add_assoc pos]

/-- Between two words: the iterator is in the run `r`, with `compressed` words of the run and
`literals` words behind it handed out. -/
structure Within (it : EwahIterator) (before : List Run) (r : Run) (after : List Run) : Prop where
  buffer : it.buffer = encode before ++ encode (r :: after)
  rl : it.rl = rlwGetRunningLen r.marker
  lw : it.lw = rlwGetLiteralWords r.marker
  b : it.b = rlwGetRunBit r.marker
  pointer : it.pointer = (encode before).length + it.literals.toNat
  compressed : it.compressed.toNat ≤ it.rl.toNat
  literals : it.literals.toNat ≤ it.lw.toNat
  order : it.compressed.toNat < it.rl.toNat → it.literals = 0

def unread (it : EwahIterator) (r : Run) : List Eword :=
  List.replicate (it.rl.toNat - it.compressed.toNat) (fillWord it.b) ++ r.literals.drop it.literals.toNat

def Stands (it : EwahIterator) (rest : List Eword) : Prop :=
  (it.buffer.length ≤ it.pointer ∧ rest = []) ∨
  ∃ before r after, Within it before r after ∧ unread it r ≠ [] ∧ rest = unread it r ++ decode after

variable {it : EwahIterator}

lemma readRlw_stands {before after : List Run} (hbuffer : it.buffer = encode before ++ encode after)
    (hpointer : it.pointer = (encode before).length) (hafter : after ≠ []) (hcompressed : it.compressed = 0)
    (hliterals : it.literals = 0) : Stands (readRlw it) (decode after) := by
  induction after generalizing it before with
  | nil => exact absurd rfl hafter
  | cons r after ih =>
    have hword : it.buffer.getD it.pointer 0 = r.marker := by
      rw [hbuffer, hpointer, encode_cons, List.getD_eq_getElem?_getD, List.getElem?_append_right (Nat.le_refl _),
        Nat.sub_self]
      rfl
    have hlength : it.buffer.length = (encode before).length + 1 + r.literals.length + (encode after).length := by
      rw [hbuffer, encode_cons, List.length_append, List.length_cons, List.length_append]
      omega
    have hwithin : Within (it.load it.pointer) before r after := by
      refine ⟨hbuffer, ?_, ?_, ?_, ?_, ?_, ?_, ?_⟩
      · exact congrArg rlwGetRunningLen hword
      · exact congrArg rlwGetLiteralWords hword
      · exact congrArg rlwGetRunBit hword
      · change it.pointer = _ + it.literals.toNat
        rw [hliterals, hpointer]
        rfl
      · change it.compressed.toNat ≤ _
        rw [hcompressed]
        exact Nat.zero_le _
      · change it.literals.toNat ≤ _
        rw [hliterals]
        exact Nat.zero_le _
      · exact fun _ => hliterals
    have hunread : unread (it.load it.pointer) r = r.words := by
      rw [unread, hwithin.rl, hwithin.b, Run.words]
      change List.replicate (_ - it.compressed.toNat) _ ++ r.literals.drop it.literals.toNat = _
      rw [hcompressed, hliterals]
      rfl
    rw [readRlw]
    split
    · rename_i hsome
      refine Or.inr ⟨before, r, after, hwithin, ?_, by rw [hunread, decode_cons]⟩
      rw [hunread]
      refine List.ne_nil_of_length_pos ?_
      rw [length_words, ← hwithin.rl, ← hwithin.lw]
      rcases hsome with h | h
      · have hpos : (it.load it.pointer).rl.toNat ≠ 0 := fun h0 => h (BitVec.eq_of_toNat_eq h0)
        omega
      · have hpos : (it.load it.pointer).lw.toNat ≠ 0 := fun h0 => h (BitVec.eq_of_toNat_eq h0)
        omega
    · rename_i hnone
      push Not at hnone
      have hnil : r.literals = [] := literals_eq_nil (by rw [← hwithin.lw]; exact hnone.2)
      have hwords : r.words = [] := by
        refine List.eq_nil_of_length_eq_zero ?_
        rw [length_words, ← hwithin.rl, ← hwithin.lw, hnone.1, hnone.2]
        rfl
      rw [decode_cons, hwords, List.nil_append]
      rw [hnil, List.length_nil, Nat.add_zero] at hlength
      split
      · rename_i hmore
        have hbuffer' : it.buffer = encode (before ++ [r]) ++ encode after := by
          rw [hbuffer, ← encode_append, ← encode_append, List.append_assoc, List.singleton_append]
        refine @ih _ (before ++ [r]) hbuffer' ?_ ?_ hcompressed hliterals
        · change it.pointer + 1 = _
          rw [hpointer, encode_append, encode_cons, hnil, List.length_append]
          rfl
        · rintro rfl
          rw [show (encode []).length = 0 from rfl] at hlength
          omega
      · rename_i hend
        have hafter' : encode after = [] := List.eq_nil_of_length_eq_zero (by omega)
        obtain rfl : after = [] := by
          cases after with
          | nil => rfl
          | cons r' rest =>
            rw [encode_cons] at hafter'
            cases hafter'
        exact Or.inl ⟨Nat.le_refl _, rfl⟩

lemma nextRun_stands {before : List Run} {r : Run} {after : List Run} (h : Within it before r after)
    (hliterals : it.literals = it.lw) :
    Stands (if it.pointer + 1 < it.buffer.length then readNewRlw { it with pointer := it.pointer + 1 }
      else { it with pointer := it.pointer + 1 }) (decode after) := by
  have hcount : it.literals.toNat = r.literals.length := by rw [hliterals, h.lw, r.counted]
  have hbuffer : it.buffer = encode (before ++ [r]) ++ encode after := by
    rw [h.buffer, ← encode_append, ← encode_append, List.append_assoc, List.singleton_append]
  have hpointer : it.pointer + 1 = (encode (before ++ [r])).length := by
    rw [h.pointer, hcount, encode_append, encode_cons, List.length_append, List.length_cons, List.length_append]
    change _ = _ + (r.literals.length + 0 + 1)
    omega
  have hlength : it.buffer.length = it.pointer + 1 + (encode after).length := by
    rw [hpointer, hbuffer, List.length_append]
  split
  · rename_i hmore
    refine @readRlw_stands _ (before ++ [r]) _ hbuffer hpointer ?_ rfl rfl
    rintro rfl
    rw [show (encode []).length = 0 from rfl] at hlength
    omega
  · rename_i hend
    have hafter : encode after = [] := List.eq_nil_of_length_eq_zero (by omega)
    obtain rfl : after = [] := by
      cases after with
      | nil => rfl
      | cons r' rest =>
        rw [encode_cons] at hafter
        cases hafter
    exact Or.inl ⟨Nat.not_lt.mp hend, rfl⟩

lemma takeWord_within {before : List Run} {r : Run} {after : List Run} (h : Within it before r after)
    (hunread : unread it r ≠ []) :
    Within (takeWord it).2 before r after ∧ unread it r = (takeWord it).1 :: unread (takeWord it).2 r := by
  have hcounted := r.counted
  rw [← h.lw] at hcounted
  unfold takeWord
  split
  · rename_i hlt
    have hlt' : it.compressed.toNat < it.rl.toNat := hlt
    have hbound := it.rl.isLt
    have hnat : (it.compressed + 1).toNat = it.compressed.toNat + 1 := by
      rw [BitVec.toNat_add, show (1 : Eword).toNat = 1 from rfl, Nat.mod_eq_of_lt (by omega)]
    have hle : (it.compressed + 1).toNat ≤ it.rl.toNat := by omega
    refine ⟨⟨h.buffer, h.rl, h.lw, h.b, h.pointer, hle, h.literals, fun _ => h.order hlt'⟩, ?_⟩
    have hsucc : it.rl.toNat - it.compressed.toNat = it.rl.toNat - (it.compressed + 1).toNat + 1 := by omega
    rw [unread, hsucc, List.replicate_succ, List.cons_append]
    rfl
  · rename_i hge
    have hge' : it.rl.toNat ≤ it.compressed.toNat := Nat.not_lt.mp hge
    have hrun : it.rl.toNat - it.compressed.toNat = 0 := by omega
    rw [unread, hrun, List.replicate_zero, List.nil_append] at hunread
    have hlt : it.literals.toNat < r.literals.length := by
      by_contra hle
      exact hunread (List.drop_eq_nil_of_le (Nat.not_lt.mp hle))
    have hbound := it.lw.isLt
    have hnat : (it.literals + 1).toNat = it.literals.toNat + 1 := by
      rw [BitVec.toNat_add, show (1 : Eword).toNat = 1 from rfl, Nat.mod_eq_of_lt (by omega)]
    have hword : it.buffer.getD (it.pointer + 1) 0 = r.literals[it.literals.toNat] := by
      rw [h.buffer, h.pointer, encode_cons, List.getD_eq_getElem?_getD, List.getElem?_append_right (by omega),
        show (encode before).length + it.literals.toNat + 1 - (encode before).length = it.literals.toNat + 1 by omega,
        List.getElem?_cons_succ, List.getElem?_append_left hlt, List.getElem?_eq_getElem hlt]
      rfl
    have hpointer : it.pointer + 1 = (encode before).length + (it.literals + 1).toNat := by
      rw [hnat, h.pointer, Nat.add_assoc]
    have hle : (it.literals + 1).toNat ≤ it.lw.toNat := by omega
    refine ⟨⟨h.buffer, h.rl, h.lw, h.b, hpointer, h.compressed, hle, fun hlt' => absurd hlt' (by exact Nat.not_lt.mpr hge')⟩, ?_⟩
    rw [unread, unread]
    dsimp only
    rw [hrun, hnat, hword, List.replicate_zero, List.nil_append, List.nil_append, List.drop_eq_getElem_cons hlt]

lemma unread_eq_nil {before : List Run} {r : Run} {after : List Run} (h : Within it before r after) :
    unread it r = [] ↔ it.compressed = it.rl ∧ it.literals = it.lw := by
  have hcounted := r.counted
  rw [← h.lw] at hcounted
  have hcompressed := h.compressed
  have hliterals := h.literals
  rw [unread, List.append_eq_nil_iff, List.replicate_eq_nil_iff, List.drop_eq_nil_iff, hcounted, Nat.sub_eq_zero_iff_le]
  constructor
  · rintro ⟨hrun, hlits⟩
    exact ⟨BitVec.eq_of_toNat_eq (Nat.le_antisymm hcompressed hrun), BitVec.eq_of_toNat_eq (Nat.le_antisymm hliterals hlits)⟩
  · rintro ⟨hrun, hlits⟩
    rw [hrun, hlits]
    exact ⟨Nat.le_refl _, Nat.le_refl _⟩

lemma ewahIteratorNext_stands {rest : List Eword} (h : Stands it rest) :
    (ewahIteratorNext it = none ∧ rest = []) ∨
    ∃ word it' rest', ewahIteratorNext it = some (word, it') ∧ rest = word :: rest' ∧ Stands it' rest' := by
  rcases h with ⟨hend, rfl⟩ | ⟨before, r, after, hwithin, hunread, rfl⟩
  · exact Or.inl ⟨if_pos hend, rfl⟩
  · have hcounted := r.counted
    rw [← hwithin.lw] at hcounted
    have hliterals := hwithin.literals
    have hinside : ¬ it.pointer ≥ it.buffer.length := by
      rw [hwithin.pointer, hwithin.buffer, encode_cons, List.length_append, List.length_cons, List.length_append]
      omega
    obtain ⟨hmid, hcons⟩ := takeWord_within hwithin hunread
    rw [hcons, List.cons_append]
    right
    unfold ewahIteratorNext
    rw [if_neg hinside]
    dsimp only
    split
    · rename_i hdone
      rw [(unread_eq_nil hmid).mpr hdone, List.nil_append]
      exact ⟨_, _, _, rfl, rfl, nextRun_stands hmid hdone.2⟩
    · rename_i hmore
      refine ⟨_, _, _, rfl, rfl, Or.inr ⟨before, r, after, hmid, ?_, rfl⟩⟩
      exact fun hnil => hmore ((unread_eq_nil hmid).mp hnil)

lemma remainingWords_of_stands {rest : List Eword} (h : Stands it rest) :
    remainingWords it = rest := by
  induction rest generalizing it with
  | nil =>
    rcases ewahIteratorNext_stands h with ⟨hnone, -⟩ | ⟨word, it', rest', -, hcons, -⟩
    · rw [remainingWords]
      split
      · rfl
      · rename_i hsome
        rw [hnone] at hsome
        cases hsome
    · cases hcons
  | cons word rest ih =>
    rcases ewahIteratorNext_stands h with ⟨-, hnil⟩ | ⟨word', it', rest', hnext, hcons, hstands⟩
    · cases hnil
    · obtain ⟨rfl, rfl⟩ := List.cons.inj hcons
      rw [remainingWords]
      split
      · rename_i hnone
        rw [hnext] at hnone
        cases hnone
      · rename_i hsome
        rw [hnext] at hsome
        obtain ⟨rfl, rfl⟩ := Prod.mk.inj (Option.some.inj hsome)
        rw [ih hstands]

section Readers

variable {self : EwahBitmap} {n : Nat} {words : List Eword}

lemma Encodes.runs (h : Encodes self n words) :
    ∃ runs, runs ≠ [] ∧ self.buffer = encode runs ∧ decode runs = words := by
  obtain ⟨runs, last, hholds, hwords⟩ := h
  refine ⟨runs ++ [last], by simp, ?_, ?_⟩
  · rw [hholds.buffer, encode_append, encode_cons, show encode [] = [] from rfl, List.append_nil]
  · rw [← hwords, decode, List.flatMap_append, List.flatMap_singleton]
    rfl

theorem ewahEachBit_eq (h : Encodes self n words) : ewahEachBit self = bitsAt 0 words := by
  obtain ⟨runs, -, hbuffer, rfl⟩ := h.runs
  rw [ewahEachBit, hbuffer]
  exact eachBitFrom_eq [] runs 0

theorem ewahWords_eq (h : Encodes self n words) : ewahWords self = words := by
  obtain ⟨runs, hne, hbuffer, rfl⟩ := h.runs
  refine remainingWords_of_stands ?_
  have hpos : 0 < self.buffer.length := by
    rw [hbuffer]
    obtain ⟨r, rest, rfl⟩ := List.exists_cons_of_ne_nil hne
    rw [encode_cons, List.length_cons]
    exact Nat.succ_pos _
  rw [ewahIteratorInit]
  dsimp only
  rw [if_pos hpos]
  exact @readRlw_stands _ [] _ hbuffer rfl hne rfl rfl

theorem ewahBitmapPopcount_eq (h : Encodes self n words) : ewahBitmapPopcount self = (bitsAt 0 words).length := by
  have hfold : ∀ (words : List Eword) (pos count : Nat),
      words.foldl (fun count word => count + ewahBitPopcount64 word) count = count + (bitsAt pos words).length := by
    intro words
    induction words with
    | nil => exact fun pos count => rfl
    | cons w ws ih =>
      intro pos count
      rw [List.foldl_cons, ih (pos + bitsInEword), bitsAt, List.length_append, List.length_map, ewahBitPopcount64_eq,
        Nat.add_assoc]
  rw [ewahBitmapPopcount, ewahWords_eq h, hfold _ 0, Nat.zero_add]

theorem ewahToBitmap_words (h : Encodes self n words) : (ewahToBitmap self).words = words := by
  rw [ewahToBitmap, ewahWords_eq h]
  dsimp only
  rw [List.foldl_append_eq_append, List.nil_append, ← List.flatMap_def, List.flatMap_singleton']

end Readers

lemma bit_ne_zero {w : Eword} {c : Nat} (hc : c < bitsInEword) : w &&& (1 : Eword) <<< c ≠ 0 ↔ w.getLsbD c = true := by
  constructor
  · intro hne
    by_contra hoff
    refine hne (BitVec.eq_of_getLsbD_eq fun i _ => ?_)
    rw [BitVec.getLsbD_and, getLsbD_bit hc]
    by_cases hi : i = c
    · rw [hi, Bool.eq_false_iff.mpr hoff, Bool.false_and]
      exact BitVec.getLsbD_zero.symm
    · rw [decide_eq_false hi, Bool.and_false]
      exact BitVec.getLsbD_zero.symm
  · intro hon hzero
    have hbit := congrArg (fun x => BitVec.getLsbD x c) hzero
    rw [BitVec.getLsbD_and, getLsbD_bit hc, hon, decide_eq_true rfl] at hbit
    exact Bool.noConfusion (hbit.trans BitVec.getLsbD_zero)

lemma bitmapGet_iff (self : Bitmap) (pos : Nat) : bitmapGet self pos = true ↔ pos ∈ bitsAt 0 self.words := by
  have hc : pos % bitsInEword < bitsInEword := Nat.mod_lt _ (by decide)
  rw [bitmapGet, mem_bitsAt]
  rw [Bool.and_eq_true, decide_eq_true_iff, decide_eq_true_iff, bit_ne_zero hc]
  constructor
  · rintro ⟨hblock, hbit⟩
    refine ⟨pos / bitsInEword, hblock, pos % bitsInEword, hbit, ?_⟩
    rw [Nat.zero_add, Nat.mul_comm, Nat.div_add_mod]
  · rintro ⟨k, hk, c, hbit, rfl⟩
    have hlt := lt_of_getLsbD hbit
    have hdiv : (0 + k * bitsInEword + c) / bitsInEword = k := by
      rw [Nat.zero_add, Nat.add_comm, Nat.add_mul_div_right _ _ (by decide), Nat.div_eq_of_lt hlt, Nat.zero_add]
    have hmod : (0 + k * bitsInEword + c) % bitsInEword = c := by
      rw [Nat.zero_add, Nat.add_comm, Nat.add_mul_mod_self_right, Nat.mod_eq_of_lt hlt]
    rw [hdiv, hmod]
    exact ⟨hk, hbit⟩

end GitCore.Ewah
