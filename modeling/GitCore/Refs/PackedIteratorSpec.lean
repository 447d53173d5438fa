import GitCore.Refs.JumpList

/-!
# What the iterator over the packed refs yields

The iterator stands between two records. Each call of `advance` yields the first reference behind it that is
shown and not excluded, as long as the jump list has lost no extension and no excluded record is reached whose
region was passed before.
-/

namespace GitCore.Refs

variable {src : IterSource} {records : List (Record src.hexsz)} {patterns : List RefName}
  {a b c : List (Record src.hexsz)} {r : Record src.hexsz}

def reference (src : IterSource) (r : Record src.hexsz) : Reference :=
  let bad := !Refname.checkRefnameFormat r.name Refname.REFNAME_ALLOW_ONELEVEL
  let oid := if bad then zeroOid else (getOidHex src.rawsz r.head).getD zeroOid
  let flags := lineFlags src r.name bad
  match r.peeled with
  | none => ⟨r.name, oid, none, flags⟩
  | some line =>
    if flags &&& REF_ISBROKEN ≠ 0 then ⟨r.name, oid, none, flags &&& ~~~REF_KNOWS_PEELED⟩
    else ⟨r.name, oid, getOidHex src.rawsz line, flags ||| REF_KNOWS_PEELED⟩

@[simp]
lemma reference_name (r : Record src.hexsz) : (reference src r).name = r.name := by
  unfold reference
  dsimp only
  split
  · rfl
  · split_ifs <;> rfl

lemma hexToBytes_append (len : Nat) {hex : List UInt8} (rest : List UInt8) (h : 2 * len ≤ hex.length) :
    Notes.hexToBytes len (hex ++ rest) = Notes.hexToBytes len hex := by
  induction len generalizing hex with
  | zero => simp [Notes.hexToBytes]
  | succ len ih =>
    match hex, h with
    | x :: y :: hex, h =>
      simp only [List.length_cons] at h
      simp [Notes.hexToBytes, ih (show 2 * len ≤ hex.length by omega)]

lemma getOidHex_append {hex : List UInt8} (rest : List UInt8) (h : src.hexsz ≤ hex.length) :
    getOidHex src.rawsz (hex ++ rest) = getOidHex src.rawsz hex := by
  rw [getOidHex, getOidHex, hexToBytes_append src.rawsz rest h]

lemma memchr_of_drop {snapshot name rest : List UInt8} {pos : Nat} {ch : UInt8}
    (h : snapshot.drop pos = name ++ ch :: rest) (hch : ch ∉ name) : memchr snapshot pos ch = some (pos + name.length) := by
  have hidx : (snapshot.drop pos).idxOf ch = name.length := by
    rw [h, List.idxOf_append_of_notMem hch]
    simp
  rw [memchr, hidx, if_pos]
  simp [h]

lemma drop_content (a c : List (Record src.hexsz)) : (content (a ++ c)).drop (content a).length = content c := by
  simp

variable {ref : Reference}

lemma readPeeledLine_none {eol : Nat} (hline : ∀ s ∈ c, s.RefLine)
    (h : src.snapshot.drop (eol + 1) = content c) : readPeeledLine src ref eol = .ok (ref, eol + 1) := by
  rw [readPeeledLine, if_neg]
  rintro ⟨-, hcaret⟩
  rw [← List.head?_drop, h] at hcaret
  cases c with
  | nil => simp at hcaret
  | cons s c =>
    obtain ⟨d, head, hhead⟩ : ∃ d head, s.head = d :: head := List.exists_cons_of_length_eq_add_one s.head_length
    have hne := hline s (by simp)
    simp only [Record.RefLine, hhead] at hne
    simp only [content_cons, Record.bytes, hhead] at hcaret
    exact hne hcaret

lemma readPeeledLine_some {eol : Nat} {line rest : List UInt8} {peeled : ObjectId}
    (h : src.snapshot.drop (eol + 1) = caret :: (line ++ lf :: rest)) (hlength : line.length = src.hexsz)
    (hpeeled : getOidHex src.rawsz line = some peeled) :
    readPeeledLine src ref eol = .ok (if ref.flags &&& REF_ISBROKEN ≠ 0 then
      { ref with flags := ref.flags &&& ~~~REF_KNOWS_PEELED }
      else { ref with peeledOid := some peeled, flags := ref.flags ||| REF_KNOWS_PEELED }, eol + 2 + src.hexsz + 1) := by
  have hdrop : src.snapshot.drop (eol + 2) = line ++ lf :: rest := by
    rw [← List.tail_drop, h]
    rfl
  have hcaret : eol + 1 < src.snapshot.length ∧ src.snapshot[eol + 1]? = some caret := by
    have hget : src.snapshot[eol + 1]? = some caret := by
      rw [← List.head?_drop, h]
      rfl
    exact ⟨(List.getElem?_eq_some_iff.mp hget).1, hget⟩
  have hoid : getOidHex src.rawsz (line ++ lf :: rest) = some peeled := by
    rw [getOidHex_append _ hlength.ge, hpeeled]
  have hend : (line ++ lf :: rest)[src.hexsz]? = some lf := by
    rw [← hlength, List.getElem?_append_right le_rfl, Nat.sub_self]
    rfl
  rw [readPeeledLine, if_pos hcaret, hdrop]
  dsimp only
  rw [hoid, hend]
  dsimp only
  rw [if_neg (not_not.mpr rfl)]
  split_ifs <;> rfl

lemma readRecord_content (h : Packed src (a ++ r :: c) patterns) :
    readRecord src (content a).length = .ok (reference src r, (content (a ++ [r])).length) := by
  have hr := h.wellFormed r (by simp)
  have hline : ∀ s ∈ c, s.RefLine := fun s hs => h.sorted.refLine s (by simp [hs])
  have hdrop : src.snapshot.drop (content a).length = r.head ++ (r.name ++ lf :: (r.peeledLine ++ content c)) := by
    rw [h.snapshot, drop_content, content_cons, Record.bytes]
    simp
  have hname : src.snapshot.drop ((content a).length + src.hexsz + 1) = r.name ++ lf :: (r.peeledLine ++ content c) := by
    rw [Nat.add_assoc, ← List.drop_drop, hdrop, ← r.head_length, List.drop_left]
  have hbehind : src.snapshot.drop ((content a).length + src.hexsz + 1 + r.name.length + 1) = r.peeledLine ++ content c := by
    rw [Nat.add_assoc _ r.name.length, ← List.drop_drop, hname, ← List.drop_drop, List.drop_left]
    rfl
  have heol := memchr_of_drop hname r.name_lf
  obtain ⟨oid, hoid⟩ := Option.isSome_iff_exists.mp hr.oid
  obtain ⟨sep, hsep⟩ : ∃ sep, r.head[src.hexsz]? = some sep :=
    ⟨_, List.getElem?_eq_getElem (by rw [r.head_length]; omega)⟩
  have hoid' : getOidHex src.rawsz (r.head ++ (r.name ++ lf :: (r.peeledLine ++ content c))) = some oid := by
    rw [getOidHex_append _ (by rw [r.head_length]; omega), hoid]
  have hsep' : (r.head ++ (r.name ++ lf :: (r.peeledLine ++ content c)))[src.hexsz]? = some sep := by
    rw [List.getElem?_append_left (by rw [r.head_length]; omega), hsep]
  have hlen : ¬ (r.head ++ (r.name ++ lf :: (r.peeledLine ++ content c))).length < src.hexsz + 2 := by
    simp only [List.length_append, List.length_cons, r.head_length]
    omega
  rw [readRecord, hdrop]
  dsimp only
  rw [if_neg hlen, hoid', hsep']
  dsimp only
  rw [if_neg (not_not.mpr (hr.separator sep hsep)), heol]
  dsimp only
  rw [hname, Nat.add_sub_cancel_left, List.take_left, if_neg hr.nul, if_neg]
  · have hstop : (content (a ++ [r])).length =
        (content a).length + src.hexsz + 1 + r.name.length + 1 + r.peeledLine.length := by
      simp [Record.bytes, r.head_length]
      omega
    rw [hstop, reference, hoid]
    cases hpeeled : r.peeled with
    | none =>
      rw [Record.peeledLine, hpeeled] at hbehind ⊢
      exact readPeeledLine_none hline hbehind
    | some line =>
      obtain ⟨hlength, hsome⟩ := hr.peeled line hpeeled
      obtain ⟨peeled, hoidPeeled⟩ := Option.isSome_iff_exists.mp hsome
      rw [Record.peeledLine, hpeeled] at hbehind ⊢
      dsimp only at hbehind ⊢
      have hend : (content a).length + src.hexsz + 1 + r.name.length + 1 + (caret :: (line ++ [lf])).length =
          (content a).length + src.hexsz + 1 + r.name.length + 2 + src.hexsz + 1 := by
        simp [hlength]
        omega
      have hcons : src.snapshot.drop ((content a).length + src.hexsz + 1 + r.name.length + 1) =
          caret :: (line ++ lf :: content c) := by simpa using hbehind
      rw [readPeeledLine_some hcons hlength hoidPeeled, hoidPeeled, hend]
      split_ifs <;> rfl
  · rintro ⟨hbad, hsafe⟩
    exact hr.name.elim (fun hcheck => by simp [hcheck] at hbad) hsafe

def Wanted (src : IterSource) (patterns : List RefName) (r : Record src.hexsz) : Prop :=
  hidden src (reference src r) = false ∧ ¬Excluded patterns r.name

instance decidableWanted (src : IterSource) (patterns : List RefName) (r : Record src.hexsz) :
    Decidable (Wanted src patterns r) :=
  inferInstanceAs (Decidable (hidden src (reference src r) = false ∧ ¬Excluded patterns r.name))

/-- Before a record of a region that the iterator has passed there is a wanted one, if the reference of that record
is shown and has the prefix. -/
def Clear (src : IterSource) (records : List (Record src.hexsz)) (patterns : List RefName) (iter : PackedRefIterator) :
    Prop :=
  ∀ a b r c, records = a ++ (b ++ r :: c) → iter.pos = (content a).length →
    (∃ e ∈ iter.jump.take iter.jumpCur, e.Holds (content (a ++ b)).length) → hidden src (reference src r) = false →
    iter.seekPrefix.getD [] <+: r.name → ∃ s ∈ b, Wanted src patterns s

/-- Before each call of `advance` the way is clear. -/
def StepsClear (src : IterSource) (records : List (Record src.hexsz)) (patterns : List RefName) :
    List IterCall → PackedRefIterator → Prop
  | [], _ => True
  | .seek refname setPrefix :: calls, iter =>
    ∀ next, iter.seek src refname setPrefix = .ok next → StepsClear src records patterns calls next
  | .advance :: calls, iter =>
    Clear src records patterns iter ∧
      ∀ ref next, iter.advance src = .ok (ref, next) → StepsClear src records patterns calls next

/-- The references from a name on that are wanted and have the prefix, if it is set. -/
def selected (src : IterSource) (records : List (Record src.hexsz)) (patterns : List RefName) (refname : RefName)
    (setPrefix : Bool) : List Reference :=
  (records.filter fun r => refname ≤ r.name ∧ (setPrefix = true → refname <+: r.name) ∧ Wanted src patterns r).map
    (reference src)

/-- The results of the calls of `advance`, where `pending` is not yielded yet since the last seek. -/
def expected (src : IterSource) (records : List (Record src.hexsz)) (patterns : List RefName) :
    List IterCall → List Reference → List (Option Reference)
  | [], _ => []
  | .seek refname setPrefix :: calls, _ =>
    expected src records patterns calls (selected src records patterns (refname.getD []) setPrefix)
  | .advance :: calls, pending => pending.head? :: expected src records patterns calls pending.tail

variable {iter : PackedRefIterator}

structure At (src : IterSource) (a c : List (Record src.hexsz)) (iter : PackedRefIterator) : Prop where
  pos : iter.pos = (content a).length
  from_prefix : ∀ r ∈ c, iter.seekPrefix.getD [] ≤ r.name

lemma passRegions_stop_le (regions : List JumpListEntry) (pos : Nat) :
    ∀ e ∈ regions.take (passRegions regions pos).1, e.stop ≤ (passRegions regions pos).2 := by
  induction regions with
  | nil => simp
  | cons curr rest ih =>
    rw [passRegions]
    split_ifs with hstart hstop
    · simp
    · simp
    · intro e he
      obtain rfl | he := List.mem_cons.mp he
      · exact (not_lt.mp hstop).trans (le_snd_passRegions rest pos)
      · exact ih e he

lemma passRegions_spec {regions : List JumpListEntry} (hordered : Region.Ordered regions)
    (hsep : Region.Separated regions) (pos : Nat) :
    (∀ e ∈ regions, ¬e.Holds (passRegions regions pos).2) ∧
      ((passRegions regions pos).2 = pos ∨ ∃ e ∈ regions, e.Holds pos ∧ (passRegions regions pos).2 = e.stop) := by
  induction regions with
  | nil => exact ⟨by simp, .inl rfl⟩
  | cons curr rest ih =>
    obtain ⟨hstarts, hrestOrdered⟩ := List.pairwise_cons.mp hordered
    obtain ⟨hgaps, hrestSep⟩ := List.pairwise_cons.mp hsep
    rw [passRegions]
    split_ifs with hstart hstop
    · -- all regions are behind the position
      refine ⟨fun e he hholds => ?_, .inl rfl⟩
      obtain rfl | he := List.mem_cons.mp he
      · exact absurd hholds.1 (not_le.mpr hstart)
      · exact absurd hholds.1 (not_le.mpr (hstart.trans_le (hstarts e he)))
    · refine ⟨fun e he hholds => ?_, .inr ⟨curr, by simp, ⟨not_lt.mp hstart, hstop⟩, rfl⟩⟩
      obtain rfl | he := List.mem_cons.mp he
      · exact lt_irrefl _ hholds.2
      · exact absurd hholds.1 (not_le.mpr (hgaps e he))
    · obtain ⟨hnone, hwhere⟩ := ih hrestOrdered hrestSep
      refine ⟨fun e he hholds => ?_, hwhere.imp_right ?_⟩
      · obtain rfl | he := List.mem_cons.mp he
        · exact absurd hholds.2 (not_lt.mpr ((not_lt.mp hstop).trans (le_snd_passRegions rest pos)))
        · exact hnone e he hholds
      · rintro ⟨e, he, hholds, hend⟩
        exact ⟨e, by simp [he], hholds, hend⟩

structure JumpListOk (records : List (Record src.hexsz)) (patterns : List RefName) (jump : List JumpListEntry) : Prop where
  ordered : Region.Ordered jump
  separated : Region.Separated jump
  holds : HoldsExcluded records patterns jump

lemma skip_spec (hrecords : records = a ++ c) (hjump : JumpListOk records patterns iter.jump) (hat : At src a c iter) :
    ∃ b d, c = b ++ d ∧ (∀ r ∈ b, Excluded patterns r.name) ∧ At src (a ++ b) d iter.skip ∧
      (∀ e ∈ iter.jump.drop iter.jumpCur, ¬e.Holds (content (a ++ b)).length) ∧
      ∀ e ∈ iter.jump.take iter.skip.jumpCur, e ∈ iter.jump.take iter.jumpCur ∨ e.stop ≤ (content (a ++ b)).length := by
  obtain ⟨hnone, hwhere⟩ := passRegions_spec (hjump.ordered.sublist (List.drop_sublist iter.jumpCur iter.jump))
    (hjump.separated.sublist (List.drop_sublist iter.jumpCur iter.jump)) iter.pos
  -- the regions passed are those passed before and those passed now
  have htake : ∀ e ∈ iter.jump.take iter.skip.jumpCur, e ∈ iter.jump.take iter.jumpCur ∨ e.stop ≤ iter.skip.pos := by
    intro e he
    rw [PackedRefIterator.skip, List.take_add, List.mem_append] at he
    exact he.imp_right (passRegions_stop_le _ _ e)
  obtain hstay | ⟨e, he, hholds, hstop⟩ := hwhere
  · have hpos : iter.skip.pos = (content a).length := by
      rw [← hat.pos]
      exact hstay
    rw [hpos] at htake
    refine ⟨[], c, rfl, by simp, ⟨?_, hat.from_prefix⟩, ?_, by rwa [List.append_nil]⟩
    · rw [List.append_nil, ← hat.pos]
      exact hstay
    · rw [List.append_nil, ← hat.pos, ← hstay]
      exact hnone
  · -- the region ends at a boundary behind the position
    have he' := List.mem_of_mem_drop he
    obtain ⟨v, hv, hve⟩ := (hjump.holds.bounded e he').2
    rw [hat.pos] at hholds
    have ha : a <+: records := ⟨c, hrecords.symm⟩
    obtain ⟨r, t, rfl⟩ := isPrefix_of_length_content_lt ha hv (hve ▸ hholds.2)
    obtain ⟨d, hd⟩ := hv
    rw [hrecords, List.append_assoc, List.append_cancel_left_eq] at hd
    subst hd
    have hpos : iter.skip.pos = (content (a ++ r :: t)).length := by
      rw [← hve]
      exact hstop
    rw [hpos] at htake
    refine ⟨r :: t, d, rfl, fun s hs => ?_, ⟨hpos, fun s hs => hat.from_prefix s (List.mem_append_right _ hs)⟩, ?_,
      htake⟩
    · obtain ⟨x, y, hxy⟩ := List.append_of_mem hs
      refine (hjump.holds.holds_iff (a ++ x) s (y ++ d) ?_).mp ⟨e, he', ?_⟩
      · rw [hrecords, hxy]
        simp
      · refine ⟨hholds.1.trans (length_content_le a x), ?_⟩
        rw [hve, hxy, ← List.append_assoc]
        exact length_content_lt ..
    · rw [← hve, ← hstop]
      exact hnone

def pending (src : IterSource) (patterns : List RefName) (pre : RefName) (c : List (Record src.hexsz)) : List Reference :=
  (c.filter fun r => pre <+: r.name ∧ Wanted src patterns r).map (reference src)

lemma pending_append (pre : RefName) (b c : List (Record src.hexsz)) :
    pending src patterns pre (b ++ c) = pending src patterns pre b ++ pending src patterns pre c := by
  simp [pending]

lemma pending_eq_nil {pre : RefName} (h : ∀ r ∈ c, pre <+: r.name → ¬Wanted src patterns r) :
    pending src patterns pre c = [] := by
  rw [pending, List.map_eq_nil_iff, List.filter_eq_nil_iff]
  intro r hr hboth
  rw [decide_eq_true_eq] at hboth
  exact h r hr hboth.1 hboth.2

lemma pending_cons_of_wanted {pre : RefName} ( hstarts : pre <+: r.name) (h : Wanted src patterns r) :
    pending src patterns pre (r :: c) = reference src r :: pending src patterns pre c := by
  rw [pending, List.filter_cons_of_pos (by simp [hstarts, h])]
  rfl

lemma not_wanted_of_excluded (h : Excluded patterns r.name) : ¬Wanted src patterns r := fun hwanted => hwanted.2 h

lemma checkPrefix_eq {name pre : RefName} (h : pre ≤ name) : checkPrefix name pre = some (decide (pre <+: name)) := by
  induction pre generalizing name with
  | nil => simp [checkPrefix]
  | cons d pre ih =>
    cases name with
    | nil => exact absurd h (not_le.mpr (List.nil_lt_cons d pre))
    | cons x name =>
      rw [checkPrefix]
      obtain hlt | rfl | hgt := lt_trichotomy x d
      · exact absurd (List.cons_lt_cons_iff.mpr (.inl hlt)) (not_lt.mpr h)
      · have hrest : pre ≤ name := by
          by_contra hno
          exact absurd (List.cons_lt_cons_iff.mpr (.inr ⟨rfl, not_le.mp hno⟩)) (not_lt.mpr h)
        rw [if_neg (lt_irrefl x), if_neg (lt_irrefl x), ih hrest]
        simp [List.cons_prefix_cons]
      · rw [if_neg hgt.not_gt, if_pos hgt]
        simp [List.cons_prefix_cons, hgt.ne]

lemma nextRecord_end (h : Packed src records patterns) (hat : At src records [] iter.skip) :
    iter.nextRecord src = .ok (none, iter.skip) := by
  rw [PackedRefIterator.nextRecord, if_pos]
  rw [hat.pos, h.snapshot]

lemma nextRecord_record (h : Packed src (a ++ r :: c) patterns) (hat : At src a (r :: c) iter.skip) :
    iter.nextRecord src = .ok (some (reference src r), { iter.skip with pos := (content (a ++ [r])).length }) := by
  rw [PackedRefIterator.nextRecord, if_neg, hat.pos, readRecord_content h]
  · rfl
  · rw [hat.pos, h.snapshot]
    exact (length_content_lt a r c).ne

lemma advance_error {e : IterError} (h : iter.nextRecord src = .error e) : iter.advance src = .error e := by
  rw [PackedRefIterator.advance]
  split <;> rename_i heq <;> rw [h] at heq <;> cases heq
  rfl

lemma advance_end {next : PackedRefIterator} (h : iter.nextRecord src = .ok (none, next)) :
    iter.advance src = .ok (none, next) := by
  rw [PackedRefIterator.advance]
  split <;> rename_i heq <;> rw [h] at heq <;> cases heq
  rfl

lemma advance_record {next : PackedRefIterator} (h : iter.nextRecord src = .ok (some ref, next)) :
    iter.advance src =
      if hidden src ref then next.advance src
      else
        match checkPrefix ref.name (next.seekPrefix.getD []) with
        | none => .error .precedingPrefix
        | some false => .ok (none, next)
        | some true => .ok (some ref, next) := by
  rw [PackedRefIterator.advance]
  split <;> rename_i heq <;> rw [h] at heq <;> cases heq
  rfl

lemma Clear.next (hclear : Clear src records patterns iter) (hrecords : records = a ++ (b ++ r :: c)) (hat : iter.pos = (content a).length)
    (hb : ∀ s ∈ b, Excluded patterns s.name) (hr : ¬Wanted src patterns r)
    (htake : ∀ e ∈ iter.jump.take iter.skip.jumpCur,
      e ∈ iter.jump.take iter.jumpCur ∨ e.stop ≤ (content (a ++ b)).length) :
    Clear src records patterns { iter.skip with pos := (content (a ++ b ++ [r])).length } := by
  intro x y s z hsplit hpos hheld hshown hpre
  -- the position tells where the iterator stands
  have hx : x = a ++ b ++ [r] := by
    have hx' : x <+: records := ⟨_, hsplit.symm⟩
    have habr : a ++ b ++ [r] <+: records := ⟨c, by rw [hrecords]; simp⟩
    exact List.IsPrefix.eq_of_length_le (isPrefix_of_length_content_le hx' habr hpos.ge)
      (isPrefix_of_length_content_le habr hx' hpos.le).length_le
  subst hx
  obtain ⟨e, he, hholds⟩ := hheld
  obtain he | hstop := htake e he
  · obtain ⟨t, ht, hwanted⟩ := hclear a (b ++ r :: y) s z (by rw [hsplit]; simp) hat
      ⟨e, he, by simpa using hholds⟩ hshown hpre
    rw [List.mem_append, List.mem_cons] at ht
    obtain ht | rfl | ht := ht
    · exact absurd hwanted (not_wanted_of_excluded (hb t ht))
    · exact absurd hwanted hr
    · exact ⟨t, ht, hwanted⟩
  · have hle : (content (a ++ b)).length ≤ (content (a ++ b ++ [r] ++ y)).length := by
      rw [List.append_assoc _ [r] y]
      exact length_content_le ..
    exact absurd hholds.2 (not_lt.mpr (hstop.trans hle))

lemma Clear.not_excluded (hclear : Clear src records patterns iter) (hjump : JumpListOk records patterns iter.jump)
    (hrecords : records = a ++ (b ++ r :: c)) (hat : iter.pos = (content a).length)
    (hb : ∀ s ∈ b, Excluded patterns s.name)
    (hnone : ∀ e ∈ iter.jump.drop iter.jumpCur, ¬e.Holds (content (a ++ b)).length)
    (hshown : hidden src (reference src r) = false) (hpre : iter.seekPrefix.getD [] <+: r.name) :
    ¬Excluded patterns r.name := by
  intro hexcluded
  obtain ⟨e, he, hholds⟩ := (hjump.holds.holds_iff (a ++ b) r c (by rw [hrecords]; simp)).mpr hexcluded
  rw [← List.take_append_drop iter.jumpCur iter.jump, List.mem_append] at he
  obtain he | he := he
  · obtain ⟨s, hs, hwanted⟩ := hclear a b r c hrecords hat ⟨e, he, hholds⟩ hshown hpre
    exact not_wanted_of_excluded (hb s hs) hwanted
  · exact hnone e he hholds

lemma advance_spec (h : Packed src records patterns) (hjump : JumpListOk records patterns iter.jump)
    (hrecords : records = a ++ c) (hat : At src a c iter) (hclear : Clear src records patterns iter) :
    ∃ next b d, c = b ++ d ∧
      iter.advance src = .ok ((pending src patterns (iter.seekPrefix.getD []) c).head?, next) ∧ At src (a ++ b) d next ∧
      next.jump = iter.jump ∧ next.seekPrefix = iter.seekPrefix ∧
      pending src patterns (iter.seekPrefix.getD []) d = (pending src patterns (iter.seekPrefix.getD []) c).tail := by
  induction hn : c.length using Nat.strong_induction_on generalizing a c iter with
  | _ n ih =>
    obtain ⟨b, d, rfl, hb, hskip, hnone, htake⟩ := skip_spec hrecords hjump hat
    have hpendingB : pending src patterns (iter.seekPrefix.getD []) b = [] :=
      pending_eq_nil fun r hr _ => not_wanted_of_excluded (hb r hr)
    cases d with
    | nil =>
      rw [List.append_nil] at hrecords
      refine ⟨iter.skip, b, [], rfl, ?_, hskip, rfl, rfl, ?_⟩
      · rw [advance_end (nextRecord_end h (hrecords ▸ hskip)), List.append_nil, hpendingB]
        rfl
      · rw [List.append_nil, hpendingB]
        rfl
    | cons r d =>
      rw [← List.append_assoc] at hrecords
      have hnext := nextRecord_record (hrecords ▸ h) hskip
      obtain ⟨next, hnextEq⟩ : ∃ next, next = { iter.skip with pos := (content (a ++ b ++ [r])).length } := ⟨_, rfl⟩
      have hjumpNext : next.jump = iter.jump := by rw [hnextEq]; rfl
      have hstartsNext : next.seekPrefix = iter.seekPrefix := by rw [hnextEq]; rfl
      have hatNext : At src (a ++ b ++ [r]) d next := by
        rw [hnextEq]
        exact ⟨rfl, fun s hs => hskip.from_prefix s (List.mem_cons_of_mem r hs)⟩
      have hclearNext : ¬Wanted src patterns r → Clear src records patterns next := by
        intro hr
        rw [hnextEq]
        exact hclear.next (c := d) (by rw [hrecords]; simp) hat.pos hb hr htake
      rw [← hnextEq] at hnext
      rw [advance_record hnext, pending_append, hpendingB, List.nil_append]
      by_cases hhidden : hidden src (reference src r) = true
      · -- the record is left out
        have hr : ¬Wanted src patterns r := fun hwanted => by simp [hwanted.1] at hhidden
        have hpending : pending src patterns (iter.seekPrefix.getD []) (r :: d) =
            pending src patterns (iter.seekPrefix.getD []) d := by
          rw [← List.singleton_append, pending_append, pending_eq_nil (by simpa using fun _ => hr)]
          rfl
        have hlen : d.length < n := by
          rw [← hn]
          simp
          omega
        obtain ⟨last, b', d', rfl, hadvance, hat', hjump', hstarts', hpending'⟩ := ih d.length hlen
          (hjumpNext ▸ hjump) (by rw [hrecords]; simp) hatNext (hclearNext hr) rfl
        rw [hstartsNext] at hadvance hpending'
        refine ⟨last, b ++ r :: b', d', by simp, ?_, by simpa using hat', hjump'.trans hjumpNext,
          hstarts'.trans hstartsNext, ?_⟩
        · rw [if_pos hhidden, hpending]
          exact hadvance
        · rw [hpending]
          exact hpending'
      · have hshown := Bool.eq_false_iff.mpr hhidden
        have hle : iter.seekPrefix.getD [] ≤ r.name := hskip.from_prefix r (List.mem_cons_self ..)
        have hcheck := checkPrefix_eq hle
        rw [if_neg hhidden, reference_name, hstartsNext, hcheck]
        by_cases hpre : iter.seekPrefix.getD [] <+: r.name
        · have hwanted : Wanted src patterns r :=
            ⟨hshown, hclear.not_excluded (c := d) hjump (by rw [hrecords]; simp) hat.pos hb hnone hshown hpre⟩
          rw [pending_cons_of_wanted hpre hwanted, decide_eq_true hpre]
          exact ⟨next, b ++ [r], d, by simp, rfl, by simpa using hatNext, hjumpNext, hstartsNext, rfl⟩
        · -- the names behind do not have the prefix either
          have hsorted := h.sorted.sorted
          rw [hrecords, List.pairwise_append, List.pairwise_cons] at hsorted
          have hnone : ∀ s ∈ r :: d, ¬iter.seekPrefix.getD [] <+: s.name := by
            intro s hs hyes
            obtain rfl | hs := List.mem_cons.mp hs
            · exact hpre hyes
            · exact hpre (prefix_of_between hle (hsorted.2.1.1 s hs).le hyes)
          have hpending : pending src patterns (iter.seekPrefix.getD []) (r :: d) = [] :=
            pending_eq_nil fun s hs hyes => absurd hyes (hnone s hs)
          have hrest : pending src patterns (iter.seekPrefix.getD []) d = [] :=
            pending_eq_nil fun s hs hyes => absurd hyes (hnone s (List.mem_cons_of_mem r hs))
          rw [decide_eq_false hpre, hpending]
          exact ⟨next, b ++ [r], d, by simp, rfl, by simpa using hatNext, hjumpNext, hstartsNext, hrest⟩

lemma seek_spec (h : Packed src records patterns) (iter : PackedRefIterator) (refname : Option RefName) (setPrefix : Bool) :
    ∃ next a c, records = a ++ c ∧ iter.seek src refname setPrefix = .ok next ∧ At src a c next ∧
      next.jump = iter.jump ∧
      pending src patterns (next.seekPrefix.getD []) c =
        selected src records patterns (refname.getD []) setPrefix := by
  obtain ⟨u, b, v, hsplit, hu, hb, hv⟩ := exists_split_prefix h.sorted.sorted (refname.getD [])
  have hfrom : ∀ r ∈ b ++ v, refname.getD [] ≤ r.name := by
    intro r hr
    obtain hr | hr := List.mem_append.mp hr
    · exact not_lt.mp (hb r hr).le
    · exact (hv r hr).1
  rw [List.append_assoc] at hsplit
  have hstart : seekStart src refname = .ok (content u).length := by
    rw [seekStart]
    split_ifs with hname
    · rw [referenceLocation, h.snapshot, hsplit, findReferenceLocation_split (hsplit ▸ h.sorted) hu hfrom]
    · obtain rfl : u = [] := by
        refine List.eq_nil_iff_forall_not_mem.mpr fun r hr => ?_
        have hlt := hu r hr
        rw [not_not.mp hname] at hlt
        exact List.not_lt_nil _ hlt
      rfl
  have hseek : iter.seek src refname setPrefix =
      .ok { iter with seekPrefix := if setPrefix then refname else none, pos := (content u).length } := by
    rw [PackedRefIterator.seek, hstart]
    rfl
  refine ⟨_, u, b ++ v, hsplit, hseek, ⟨rfl, ?_⟩, rfl, ?_⟩
  · cases setPrefix with
    | false => exact fun r _ => not_lt.mp (List.not_lt_nil r.name)
    | true => exact hfrom
  · have hbefore : u.filter (fun r => refname.getD [] ≤ r.name ∧
        (setPrefix = true → refname.getD [] <+: r.name) ∧ Wanted src patterns r) = [] := by
      rw [List.filter_eq_nil_iff]
      intro r hr hyes
      rw [decide_eq_true_eq] at hyes
      exact absurd (hu r hr) (not_lt.mpr hyes.1)
    rw [selected, hsplit, List.filter_append, hbefore, List.nil_append, pending]
    congr 1
    refine List.filter_congr fun r hr => ?_
    cases setPrefix <;> simp [hfrom r hr]

lemma run_spec (h : Packed src records patterns) (calls : List IterCall) (hjump : JumpListOk records patterns iter.jump)
    (hrecords : records = a ++ c) (hat : At src a c iter) (hclear : StepsClear src records patterns calls iter) :
    iter.run src calls =
      .ok (expected src records patterns calls (pending src patterns (iter.seekPrefix.getD []) c)) := by
  induction calls generalizing a c iter with
  | nil => rfl
  | cons call calls ih =>
    cases call with
    | seek refname setPrefix =>
      obtain ⟨next, a', c', hrecords', hseek, hat', hjump', hpending⟩ := seek_spec h iter refname setPrefix
      rw [PackedRefIterator.run, hseek, expected, ← hpending]
      exact ih (hjump' ▸ hjump) hrecords' hat' (hclear next hseek)
    | advance =>
      obtain ⟨hway, hsteps⟩ := hclear
      obtain ⟨next, b, d, rfl, hadvance, hat', hjump', hstarts', hpending⟩ := advance_spec h hjump hrecords hat hway
      have hrun := ih (hjump' ▸ hjump) (by rw [hrecords]; simp) hat' (hsteps _ next hadvance)
      rw [hstarts', hpending] at hrun
      rw [PackedRefIterator.run, hadvance, expected]
      simp [bind, Except.bind, hrun]

/-- The references that an iterator yields, from the sought names on and with the prefixes that are set, are the
wanted ones, in order and each once. -/
def YieldsWanted (src : IterSource) (records : List (Record src.hexsz)) (patterns : List RefName)
    (qsort : List JumpListEntry → List JumpListEntry) (seekPrefix : Option RefName) (calls : List IterCall) : Prop :=
  ∃ iter, packedRefIteratorBegin src qsort seekPrefix patterns = .ok iter ∧
    iter.run src calls =
      .ok (expected src records patterns calls (selected src records patterns (seekPrefix.getD []) true))

/-- In every run whose way is clear before each `advance`, over a jump list that lost no extension, the iterator
yields the wanted references. -/
theorem packedRefIterator_yields (h : Packed src records patterns) (qsort : List JumpListEntry → List JumpListEntry)
    (hsort : SortsByStart qsort) (hkept : RegionsKept src qsort patterns) (seekPrefix : Option RefName)
    (calls : List IterCall)
    (hclear : ∀ iter, packedRefIteratorBegin src qsort seekPrefix patterns = .ok iter →
      StepsClear src records patterns calls iter) :
    YieldsWanted src records patterns qsort seekPrefix calls := by
  obtain ⟨jump, hjump, hordered, hseparated, hholds⟩ := populateExcludedJumpList_spec h hsort hkept
  obtain ⟨iter, a, c, hrecords, hseek, hat, hsame, hpending⟩ :=
    seek_spec h ⟨none, 0, jump, 0⟩ seekPrefix true
  have hbegin : packedRefIteratorBegin src qsort seekPrefix patterns = .ok iter := by
    rw [packedRefIteratorBegin, hjump]
    exact hseek
  have hok : JumpListOk records patterns iter.jump := by
    rw [hsame]
    exact ⟨hordered, hseparated, hholds⟩
  refine ⟨iter, hbegin, ?_⟩
  rw [run_spec h calls hok hrecords hat (hclear iter hbegin), hpending]

def PassedBehind (iter : PackedRefIterator) : Prop := ∀ e ∈ iter.jump.take iter.jumpCur, e.stop ≤ iter.pos

lemma PassedBehind.clear (h : PassedBehind iter) : Clear src records patterns iter := by
  intro a b r c _ hpos hheld _ _
  obtain ⟨e, he, hholds⟩ := hheld
  have hstop := h e he
  rw [hpos] at hstop
  exact absurd hholds.2 (not_lt.mpr (hstop.trans (length_content_le a b)))

lemma PassedBehind.skip (h : PassedBehind iter) : PassedBehind iter.skip := by
  intro e he
  rw [PackedRefIterator.skip, List.take_add, List.mem_append] at he
  obtain he | he := he
  · exact (h e he).trans (le_snd_passRegions _ _)
  · exact passRegions_stop_le _ _ e he

lemma PassedBehind.nextRecord (h : PassedBehind iter) {ref : Option Reference} {next : PackedRefIterator}
    (hnext : iter.nextRecord src = .ok (ref, next)) : PassedBehind next := by
  unfold PackedRefIterator.nextRecord at hnext
  split_ifs at hnext with hend
  · obtain ⟨-, rfl⟩ := Prod.mk.inj (Except.ok.inj hnext)
    exact h.skip
  · cases hread : readRecord src iter.skip.pos with
    | error e =>
      rw [hread] at hnext
      cases hnext
    | ok result =>
      obtain ⟨ref', stop⟩ := result
      have hlt := (lt_readRecord hread).1
      rw [hread] at hnext
      obtain ⟨-, rfl⟩ := Prod.mk.inj (Except.ok.inj hnext)
      exact fun e he => (h.skip e he).trans hlt.le

lemma PassedBehind.advance (h : PassedBehind iter) {ref : Option Reference} {next : PackedRefIterator}
    (hnext : iter.advance src = .ok (ref, next)) : PassedBehind next := by
  induction hn : src.snapshot.length - iter.pos using Nat.strong_induction_on generalizing iter with
  | _ n ih =>
    cases hrecord : iter.nextRecord src with
    | error e =>
      rw [advance_error hrecord] at hnext
      cases hnext
    | ok result =>
      obtain ⟨ref', after⟩ := result
      have hafter := h.nextRecord hrecord
      cases ref' with
      | none =>
        rw [advance_end hrecord] at hnext
        obtain ⟨-, rfl⟩ := Prod.mk.inj (Except.ok.inj hnext)
        exact hafter
      | some ref' =>
        rw [advance_record hrecord] at hnext
        split_ifs at hnext with hhidden
        · have hlt := lt_nextRecord_pos hrecord
          exact ih (src.snapshot.length - after.pos) (by omega) hafter hnext rfl
        · split at hnext
          · cases hnext
          · obtain ⟨-, rfl⟩ := Prod.mk.inj (Except.ok.inj hnext)
            exact hafter
          · obtain ⟨-, rfl⟩ := Prod.mk.inj (Except.ok.inj hnext)
            exact hafter

lemma PassedBehind.stepsClear (h : PassedBehind iter) {calls : List IterCall} (hcalls : ∀ call ∈ calls, call = .advance) :
    StepsClear src records patterns calls iter := by
  induction calls generalizing iter with
  | nil => trivial
  | cons call calls ih =>
    obtain rfl := hcalls call (by simp)
    exact ⟨h.clear, fun ref next hnext => ih (h.advance hnext) fun call hcall => hcalls call (by simp [hcall])⟩

lemma seek_jumpCur {refname : Option RefName} {setPrefix : Bool} {next : PackedRefIterator}
    (h : iter.seek src refname setPrefix = .ok next) : next.jumpCur = iter.jumpCur := by
  unfold PackedRefIterator.seek at h
  cases hstart : seekStart src refname with
  | error e =>
    rw [hstart] at h
    cases h
  | ok start =>
    rw [hstart] at h
    obtain rfl := Except.ok.inj h
    rfl

lemma passedBehind_begin {qsort : List JumpListEntry → List JumpListEntry} {seekPrefix : Option RefName}
    (h : packedRefIteratorBegin src qsort seekPrefix patterns = .ok iter) : PassedBehind iter := by
  unfold packedRefIteratorBegin at h
  cases hjump : populateExcludedJumpList src qsort patterns with
  | error e =>
    rw [hjump] at h
    cases h
  | ok jump =>
    rw [hjump] at h
    have hcur : iter.jumpCur = 0 := seek_jumpCur h
    intro e he
    rw [hcur] at he
    exact absurd he List.not_mem_nil

lemma wanted_of_mem_expected (calls : List IterCall) {refs : List Reference}
    (h : some ref ∈ expected src records patterns calls refs)
    (hrefs : ∀ ref ∈ refs, ∃ r, ref = reference src r ∧ Wanted src patterns r) :
    ∃ r, ref = reference src r ∧ Wanted src patterns r := by
  induction calls generalizing refs with
  | nil => exact absurd h List.not_mem_nil
  | cons call calls ih =>
    cases call with
    | seek refname setPrefix =>
      refine ih h fun ref' href' => ?_
      obtain ⟨r, hr, rfl⟩ := List.mem_map.mp href'
      rw [List.mem_filter, decide_eq_true_eq] at hr
      exact ⟨r, rfl, hr.2.2.2⟩
    | advance =>
      obtain hhead | htail := List.mem_cons.mp h
      · exact hrefs ref (List.mem_of_head? hhead.symm)
      · exact ih htail fun ref' href' => hrefs ref' (List.mem_of_mem_tail href')

lemma not_excluded_of_mem_expected {calls : List IterCall} {refname : RefName} {setPrefix : Bool}
    (h : some ref ∈ expected src records patterns calls (selected src records patterns refname setPrefix)) :
    ¬Excluded patterns ref.name := by
  obtain ⟨r, rfl, hwanted⟩ :=
    @wanted_of_mem_expected src records patterns ref (.seek (some refname) setPrefix :: calls) [] h (by simp)
  rw [reference_name]
  exact hwanted.2

lemma not_yieldsWanted {qsort : List JumpListEntry → List JumpListEntry} {seekPrefix : Option RefName}
    {calls : List IterCall} {refs : List (Option Reference)} {ref : Reference}
    (hbegin : packedRefIteratorBegin src qsort seekPrefix patterns = .ok iter) (hrun : iter.run src calls = .ok refs)
    (href : some ref ∈ refs) (hexcluded : Excluded patterns ref.name) :
    ¬YieldsWanted src records patterns qsort seekPrefix calls := by
  rintro ⟨iter', hbegin', hrun'⟩
  obtain rfl := Except.ok.inj (hbegin.symm.trans hbegin')
  obtain rfl := Except.ok.inj (hrun.symm.trans hrun')
  exact not_excluded_of_mem_expected href hexcluded

lemma advance_shown (h : Packed src (a ++ r :: c) patterns) (hpos : iter.skip.pos = (content a).length)
    (hshown : hidden src (reference src r) = false) ( hstarts : iter.seekPrefix = none) :
    iter.advance src = .ok (some (reference src r), { iter.skip with pos := (content (a ++ [r])).length }) := by
  have hat : At src a (r :: c) iter.skip := ⟨hpos, fun s _ => by
    have hnone : iter.skip.seekPrefix = none := hstarts
    rw [hnone]
    exact not_lt.mp (List.not_lt_nil s.name)⟩
  have hnone : ({ iter.skip with pos := (content (a ++ [r])).length } : PackedRefIterator).seekPrefix = none := hstarts
  rw [advance_record (nextRecord_record h hat), hshown, hnone]
  cases (reference src r).name <;> rfl

def letterName (d : UInt8) : RefName := [0x72, 0x65, 0x66, 0x73, 0x2f, d, 0x2f, 0x78]

def letterDir (d : UInt8) : RefName := [0x72, 0x65, 0x66, 0x73, 0x2f, d, 0x2f]

def letterRecord (d : UInt8) (h : d ≠ lf) : Record 40 where
  head := List.replicate 40 0x61 ++ [0x20]
  name := letterName d
  peeled := none
  head_length := by decide
  head_lf := by decide
  name_lf := by
    have hlf : lf ≠ d := h.symm
    simp only [letterName, List.mem_cons, List.not_mem_nil, or_false, hlf]
    decide
  peeled_lf := by simp

def letterRecords : List (Record 40) :=
  [letterRecord 0x61 (by decide), letterRecord 0x62 (by decide), letterRecord 0x63 (by decide),
    letterRecord 0x64 (by decide), letterRecord 0x65 (by decide)]

def letterSource : IterSource where
  rawsz := 20
  snapshot := content letterRecords
  peeled := .none
  flags := REFS_FOR_EACH_INCLUDE_BROKEN
  hasObject := fun _ => true
  normalizePathCopy := some

def letters : List UInt8 := [0x61, 0x62, 0x63, 0x64, 0x65]

lemma letter_facts : ∀ d ∈ letters, Refname.disposition d = 0 ∧ d ≠ 0 ∧ d ≠ Refname.period ∧ Refname.fixChar 0 d = d := by
  rw [letters]
  simp only [List.forall_mem_cons, List.not_mem_nil, false_imp_iff, implies_true, and_true]
  decide

lemma check_letterName {d : UInt8} (h : d ∈ letters) :
    Refname.checkRefnameFormat (letterName d) Refname.REFNAME_ALLOW_ONELEVEL = true := by
  obtain ⟨hdisposition, -, hperiod, hfix⟩ := letter_facts d h
  have hname : letterName d = Refname.joined [[0x72, 0x65, 0x66, 0x73], [d], [0x78]] := rfl
  have hparts : ∀ p ∈ [[0x72, 0x65, 0x66, 0x73], [d], [0x78]], Refname.IsPart p := by
    simp only [Refname.IsPart, List.mem_cons, List.not_mem_nil, or_false, forall_eq_or_imp, forall_eq, hdisposition]
    decide
  have hrefs : Refname.ValidPart [0x72, 0x65, 0x66, 0x73] :=
    ⟨by simp, ⟨by decide, by decide, by decide, by decide, by decide, by decide, by decide, by decide, trivial⟩,
      by decide, by decide⟩
  have hletter : Refname.ValidPart [d] :=
    ⟨by simp, ⟨fun hdot => hperiod hdot.1, hfix, trivial⟩, by simpa using hperiod,
      fun hlock => absurd hlock.length_le (by simp [Refname.LOCK_SUFFIX])⟩
  have hx : Refname.ValidPart [0x78] := ⟨by simp, ⟨by decide, by decide, trivial⟩, by decide, by decide⟩
  rw [hname, Refname.checkRefnameFormat_joined (by simp) hparts, ← hname]
  refine ⟨by simp [letterName, Refname.atSign], ?_, by simp [Refname.period]⟩
  simp only [List.mem_cons, List.not_mem_nil, or_false, forall_eq_or_imp, forall_eq]
  exact ⟨hrefs, hletter, hx⟩

lemma letterRecord_wellFormed {d : UInt8} (hlf : d ≠ lf) (h : d ∈ letters) :
    WellFormed letterSource (letterRecord d hlf) where
  oid := by
    show (getOidHex 20 (List.replicate 40 0x61 ++ [0x20])).isSome = true
    decide
  separator c hc := by
    obtain rfl : (0x20 : UInt8) = c := Option.some.inj hc
    decide
  nul := by
    show 0 ∉ letterName d
    simp only [letterName, List.mem_cons, List.not_mem_nil, or_false, (letter_facts d h).2.1.symm]
    decide
  name := .inl (check_letterName h)
  peeled := by
    intro line hline
    exact absurd hline (by simp [letterRecord])

lemma mem_letterRecords {r : Record 40} (h : r ∈ letterRecords) : ∃ d hlf, d ∈ letters ∧ r = letterRecord d hlf := by
  simp only [letterRecords, List.mem_cons, List.not_mem_nil, or_false] at h
  obtain rfl | rfl | rfl | rfl | rfl := h
  all_goals exact ⟨_, _, by decide, rfl⟩

lemma letterRecords_sorted : SortedRecords letterRecords where
  refLine := by
    intro r hr
    obtain ⟨d, hlf, -, rfl⟩ := mem_letterRecords hr
    exact (by decide : some (0x61 : UInt8) ≠ some caret)
  sorted := by decide

lemma letters_packed (patterns : List RefName) (h : ∀ p ∈ patterns, p.getLast? = some Refname.slash) :
    Packed letterSource letterRecords patterns where
  snapshot := rfl
  sorted := letterRecords_sorted
  wellFormed := by
    intro r hr
    obtain ⟨d, hlf, hd, rfl⟩ := mem_letterRecords hr
    exact letterRecord_wellFormed hlf hd
  slash := h


@[simp]
lemma length_letterRecord (d : UInt8) (hlf : d ≠ lf) : (letterRecord d hlf).bytes.length = 50 := rfl

lemma letter_locations {u v : List (Record 40)} {d : UInt8} {hlf : d ≠ lf} {patterns : List RefName}
    (hslash : ∀ p ∈ patterns, p.getLast? = some Refname.slash) (hd : letterDir d ∈ patterns)
    (hsplit : letterRecords = u ++ [letterRecord d hlf] ++ v) (hu : ∀ r ∈ u, r.name < letterDir d)
    (hv : ∀ r ∈ v, letterDir d ≤ r.name ∧ ¬letterDir d <+: r.name) :
    referenceLocation letterSource (letterDir d) = .ok (content u).length ∧
      referenceLocationEnd letterSource (letterDir d) = .ok ((content u).length + 50) := by
  have hpacked := letters_packed patterns hslash
  rw [hsplit] at hpacked
  have hlocations := referenceLocations_split hpacked hd hu (fun r hr => by
    obtain rfl := List.mem_singleton.mp hr
    exact ⟨[0x78], rfl⟩) hv
  have hlength : (content (u ++ [letterRecord d hlf])).length = (content u).length + 50 := by simp
  rw [← hlength]
  exact hlocations

def startSort (jump : List JumpListEntry) : List JumpListEntry :=
  jump.insertionSort (fun e f => e.start ≤ f.start)

lemma startSort_sorts : SortsByStart startSort where
  perm := List.perm_insertionSort _
  ordered l := by
    have htotal : Std.Total (fun e f : JumpListEntry => e.start ≤ f.start) := ⟨fun e f => le_total e.start f.start⟩
    have htrans : IsTrans JumpListEntry (fun e f => e.start ≤ f.start) := ⟨fun _ _ _ => le_trans⟩
    exact List.pairwise_insertionSort _ l

lemma hidden_letter (ref : Reference) : hidden letterSource ref = false := by
  have hworktree : letterSource.flags &&& REFS_FOR_EACH_PER_WORKTREE_ONLY = 0 := by decide
  have hbroken : letterSource.flags &&& REFS_FOR_EACH_INCLUDE_BROKEN ≠ 0 := by decide
  simp [hidden, hworktree, hbroken]

/-- The directories `a` and `b` stand together, and `d` and `e` do. -/
def letterPatterns : List RefName := [letterDir 0x61, letterDir 0x62, letterDir 0x64, letterDir 0x65]

lemma letterPatterns_slash : ∀ p ∈ letterPatterns, p.getLast? = some Refname.slash := by decide

lemma hasGlobSpecial_letterDir : ∀ d ∈ letters, hasGlobSpecial (letterDir d) = false := by
  rw [letters]
  simp only [List.forall_mem_cons, List.not_mem_nil, false_imp_iff, implies_true, and_true]
  decide

lemma excludedRegions_letters :
    excludedRegions letterSource letterPatterns = .ok [⟨0, 50⟩, ⟨50, 100⟩, ⟨150, 200⟩, ⟨200, 250⟩] := by
  have hslash := letterPatterns_slash
  obtain ⟨ha, ha'⟩ := letter_locations (u := []) (v := letterRecords.drop 1) hslash
    (by simp [letterPatterns] : letterDir 0x61 ∈ letterPatterns) rfl (by decide) (by decide)
  obtain ⟨hb, hb'⟩ := letter_locations (u := letterRecords.take 1) (v := letterRecords.drop 2) hslash
    (by simp [letterPatterns] : letterDir 0x62 ∈ letterPatterns) rfl (by decide) (by decide)
  obtain ⟨hd, hd'⟩ := letter_locations (u := letterRecords.take 3) (v := letterRecords.drop 4) hslash
    (by simp [letterPatterns] : letterDir 0x64 ∈ letterPatterns) rfl (by decide) (by decide)
  obtain ⟨he, he'⟩ := letter_locations (u := letterRecords.take 4) (v := []) hslash
    (by simp [letterPatterns] : letterDir 0x65 ∈ letterPatterns) rfl (by decide) (by decide)
  simp only [letterPatterns, excludedRegions, ha, ha', hb, hb', hd, hd', he, he',
    hasGlobSpecial_letterDir 0x61 (by decide), hasGlobSpecial_letterDir 0x62 (by decide),
    hasGlobSpecial_letterDir 0x64 (by decide), hasGlobSpecial_letterDir 0x65 (by decide)]
  simp [letterRecords, bind, Except.bind]

lemma excludedRegions_letter : excludedRegions letterSource [letterDir 0x61] = .ok [⟨0, 50⟩] := by
  have hslash : ∀ p ∈ [letterDir 0x61], p.getLast? = some Refname.slash := by decide
  obtain ⟨ha, ha'⟩ := letter_locations (u := []) (v := letterRecords.drop 1) hslash (List.mem_singleton.mpr rfl) rfl
    (by decide) (by decide)
  simp only [excludedRegions, ha, ha', hasGlobSpecial_letterDir 0x61 (by decide)]
  simp [bind, Except.bind]

lemma coalesceJumps_letters :
    coalesceJumps [⟨0, 50⟩, ⟨50, 100⟩, ⟨150, 200⟩, ⟨200, 250⟩] 1 1 0 = [⟨0, 100⟩, ⟨150, 200⟩] := by
  rw [coalesceJumps_step rfl rfl, if_pos (by decide), coalesceJumps_step rfl rfl, if_neg (by decide),
    coalesceJumps_step rfl rfl, if_pos (by decide), coalesceJumps_end rfl]
  rfl

theorem packedRefIterator_yields_letter :
    YieldsWanted letterSource letterRecords [letterDir 0x61] startSort none [.advance, .advance] := by
  refine packedRefIterator_yields (letters_packed _ (by decide)) startSort startSort_sorts ?_ none _
    fun iter hbegin => (passedBehind_begin hbegin).stepsClear (by simp)
  intro regions cur rest hregions hsort
  obtain rfl := Except.ok.inj (excludedRegions_letter.symm.trans hregions)
  obtain ⟨-, rfl⟩ := List.cons.inj hsort
  trivial

lemma advance_letter (iter : PackedRefIterator) {a c : List (Record 40)} {d : UInt8} {hlf : d ≠ lf} (hsplit : letterRecords = a ++ letterRecord d hlf :: c)
    (hpos : iter.skip.pos = (content a).length) ( hstarts : iter.seekPrefix = none) :
    ∃ ref : Reference, ref.name = letterName d ∧
      iter.advance letterSource = .ok (some ref, { iter.skip with pos := (content a).length + 50 }) := by
  have hpacked := letters_packed [] (by simp)
  rw [hsplit] at hpacked
  have hlength : (content (a ++ [letterRecord d hlf])).length = (content a).length + 50 := by simp
  have hadvance := advance_shown hpacked hpos (hidden_letter _) hstarts
  rw [← hlength]
  exact ⟨_, reference_name _, hadvance⟩

/-- With the directories of `a`, `b`, `d` and `e` excluded the ref of `e` is yielded. With the one of `a` excluded
the ref of `a` is yielded after a seek back to the start. -/
theorem packedRefIterator_yieldsExcluded :
    ¬YieldsWanted letterSource letterRecords letterPatterns startSort none [.advance, .advance] ∧
      ¬YieldsWanted letterSource letterRecords [letterDir 0x61] startSort none
        [.advance, .seek none false, .advance] := by
  constructor
  · have hbegin : packedRefIteratorBegin letterSource startSort none letterPatterns =
        .ok ⟨none, 0, [⟨0, 100⟩, ⟨150, 200⟩], 0⟩ := by
      rw [packedRefIteratorBegin, populateExcludedJumpList, excludedRegions_letters]
      show Except.ok (⟨none, 0, coalesceJumps [⟨0, 50⟩, ⟨50, 100⟩, ⟨150, 200⟩, ⟨200, 250⟩] 1 1 0, 0⟩ : PackedRefIterator) = _
      rw [coalesceJumps_letters]
    obtain ⟨c, -, hc⟩ := advance_letter ⟨none, 0, [⟨0, 100⟩, ⟨150, 200⟩], 0⟩
      (a := letterRecords.take 2) (c := letterRecords.drop 3) rfl rfl rfl
    obtain ⟨e, hname, he⟩ := advance_letter ⟨none, 150, [⟨0, 100⟩, ⟨150, 200⟩], 1⟩
      (a := letterRecords.take 4) (c := []) rfl rfl rfl
    have hc' : PackedRefIterator.advance letterSource ⟨none, 0, [⟨0, 100⟩, ⟨150, 200⟩], 0⟩ =
      .ok (some c, ⟨none, 150, [⟨0, 100⟩, ⟨150, 200⟩], 1⟩) := hc
    have hrun : PackedRefIterator.run letterSource [.advance, .advance] ⟨none, 0, [⟨0, 100⟩, ⟨150, 200⟩], 0⟩ =
        .ok [some c, some e] := by
      simp [PackedRefIterator.run, hc', he, bind, Except.bind]
    have hmem : some e ∈ [some c, some e] := by simp
    have hexcluded : Excluded letterPatterns e.name := by
      rw [hname]
      decide
    exact not_yieldsWanted hbegin hrun hmem hexcluded
  · have hbegin : packedRefIteratorBegin letterSource startSort none [letterDir 0x61] = .ok ⟨none, 0, [⟨0, 50⟩], 0⟩ := by
      rw [packedRefIteratorBegin, populateExcludedJumpList, excludedRegions_letter]
      show Except.ok (⟨none, 0, coalesceJumps [⟨0, 50⟩] 1 1 0, 0⟩ : PackedRefIterator) = _
      rw [coalesceJumps_end rfl]
      rfl
    obtain ⟨b, -, hb⟩ := advance_letter ⟨none, 0, [⟨0, 50⟩], 0⟩
      (a := letterRecords.take 1) (c := letterRecords.drop 2) rfl rfl rfl
    obtain ⟨a, hname, ha⟩ := advance_letter ⟨none, 0, [⟨0, 50⟩], 1⟩ (a := []) (c := letterRecords.drop 1) rfl rfl rfl
    have hb' : PackedRefIterator.advance letterSource ⟨none, 0, [⟨0, 50⟩], 0⟩ = .ok (some b, ⟨none, 100, [⟨0, 50⟩], 1⟩) := hb
    have hseek : PackedRefIterator.seek letterSource ⟨none, 100, [⟨0, 50⟩], 1⟩ none false = .ok ⟨none, 0, [⟨0, 50⟩], 1⟩ := rfl
    have hrun : PackedRefIterator.run letterSource [.advance, .seek none false, .advance] ⟨none, 0, [⟨0, 50⟩], 0⟩ =
        .ok [some b, some a] := by
      simp [PackedRefIterator.run, hb', hseek, ha, bind, Except.bind]
    have hmem : some a ∈ [some b, some a] := by simp
    have hexcluded : Excluded [letterDir 0x61] a.name := by
      rw [hname]
      decide
    exact not_yieldsWanted hbegin hrun hmem hexcluded

end GitCore.Refs
