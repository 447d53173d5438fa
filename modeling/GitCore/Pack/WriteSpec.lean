import GitCore.Pack.WriteOrder

/-!
# What is written

`write_one` keeps a pack in which every delta is behind its base and carries the distance to it.
The marks of the recursion stay on objects whose chains are longer.
-/

namespace GitCore.Pack

variable {α : Type} [DecidableEq α] {data : PackData α} {allowOfsDelta : Bool} {preferredBase : α → Bool}
  {delta : α → Option α} {start : List UInt8}

abbrev recordOf (data : PackData α) (allowOfsDelta : Bool) (s : WriteState α) (e : α) : List UInt8 :=
  writeObject data allowOfsDelta s.delta s.idxOffset e

/-- A pack that is being written: the records of the objects written so far, each at its offset and
behind the one of its base. -/
structure PackWritten (data : PackData α) (allowOfsDelta : Bool) (preferredBase : α → Bool) (delta : α → Option α)
    (start : List UInt8) (s : WriteState α) : Prop where
  delta_eq : s.delta = delta
  nodup : s.writtenList.Nodup
  not_preferred : ∀ e, preferredBase e = true → s.idxOffset e = 0
  mem : ∀ e, e ∈ s.writtenList ↔ 2 ≤ s.idxOffset e
  file_eq : s.file = start ++ (s.writtenList.map (recordOf data allowOfsDelta s)).flatten
  offset_eq : s.offset = s.file.length
  record_at : ∀ before e after, s.writtenList = before ++ e :: after →
    s.idxOffset e = (start ++ (before.map (recordOf data allowOfsDelta s)).flatten).length
  base_before : ∀ before e after, s.writtenList = before ++ e :: after → ∀ base, delta e = some base →
    preferredBase base = false → base ∈ before

omit [DecidableEq α] in
lemma writeObject_congr {idxOffset idxOffset' : α → Nat} {e : α} (hself : idxOffset' e = idxOffset e)
    (hbase : ∀ base, delta e = some base → idxOffset' base = idxOffset base) :
    writeObject data allowOfsDelta delta idxOffset' e = writeObject data allowOfsDelta delta idxOffset e := by
  rw [writeObject, writeObject]
  cases hdelta : delta e with
  | none => rfl
  | some base => simp only [hself, hbase base hdelta]

omit [DecidableEq α] in
lemma length_writeObject_pos (delta : α → Option α) (idxOffset : α → Nat) (e : α) :
    0 < (writeObject data allowOfsDelta delta idxOffset e).length := by
  rw [writeObject]
  have hpos := fun type size => length_encodeInPackObjectHeader_pos type size
  cases delta e with
  | none =>
    rw [List.length_append]
    exact Nat.add_pos_left (hpos _ _) _
  | some base =>
    dsimp only
    split_ifs
    · rw [List.length_append, List.length_append]
      exact Nat.add_pos_left (Nat.add_pos_left (hpos _ _) _) _
    · rw [List.length_append, List.length_append]
      exact Nat.add_pos_left (Nat.add_pos_left (hpos _ _) _) _

omit [DecidableEq α] in
lemma PackWritten.record_congr {s : WriteState α} (h : PackWritten data allowOfsDelta preferredBase delta start s)
    {idxOffset : α → Nat} (hwritten : ∀ e ∈ s.writtenList, idxOffset e = s.idxOffset e)
    (hpreferred : ∀ e, preferredBase e = true → idxOffset e = 0) {e : α} (he : e ∈ s.writtenList) :
    writeObject data allowOfsDelta s.delta idxOffset e = recordOf data allowOfsDelta s e := by
  refine writeObject_congr (hwritten e he) fun base hbase => ?_
  by_cases hpref : preferredBase base = true
  · rw [hpreferred base hpref, h.not_preferred base hpref]
  · obtain ⟨before, after, hsplit⟩ := List.append_of_mem he
    rw [h.delta_eq] at hbase
    have hmem := h.base_before before e after hsplit base hbase (by rw [← Bool.not_eq_true]; exact hpref)
    exact hwritten base (by rw [hsplit]; exact List.mem_append_left _ hmem)

omit [DecidableEq α] in
lemma PackWritten.of_offsets {s : WriteState α} (h : PackWritten data allowOfsDelta preferredBase delta start s)
    {idxOffset : α → Nat} (hwritten : ∀ e ∈ s.writtenList, idxOffset e = s.idxOffset e)
    (hpreferred : ∀ e, preferredBase e = true → idxOffset e = 0)
    (hother : ∀ e, e ∉ s.writtenList → idxOffset e < 2) :
    PackWritten data allowOfsDelta preferredBase delta start { s with idxOffset := idxOffset } := by
  have hrecord : ∀ l : List α, (∀ e ∈ l, e ∈ s.writtenList) →
      l.map (recordOf data allowOfsDelta { s with idxOffset := idxOffset }) = l.map (recordOf data allowOfsDelta s) :=
    fun l hl => List.map_congr_left fun e he => h.record_congr hwritten hpreferred (hl e he)
  refine ⟨h.delta_eq, h.nodup, hpreferred, fun e => ?_, ?_, h.offset_eq, fun before e after hsplit => ?_, h.base_before⟩
  · by_cases he : e ∈ s.writtenList
    · dsimp only
      rw [hwritten e he]
      exact h.mem e
    · exact ⟨fun hmem => absurd hmem he, fun hle => absurd (hother e he) (Nat.not_lt.mpr hle)⟩
  · rw [hrecord _ fun e he => he]
    exact h.file_eq
  · have hsplit' : s.writtenList = before ++ e :: after := hsplit
    rw [hrecord before fun x hx => by rw [hsplit']; exact List.mem_append_left _ hx]
    dsimp only
    rw [hwritten e (by rw [hsplit']; exact List.mem_append_right _ List.mem_cons_self)]
    exact h.record_at before e after hsplit'

lemma PackWritten.snoc {s : WriteState α} (h : PackWritten data allowOfsDelta preferredBase delta start s)
    (hstart : 2 ≤ start.length) {e : α} (hnotin : e ∉ s.writtenList) (hpref : preferredBase e = false)
    (hbase : ∀ base, delta e = some base → preferredBase base = false → base ∈ s.writtenList) :
    writeOneBody data allowOfsDelta s e =
        (.written, { (s.setOffset e s.offset) with
          file := s.file ++ recordOf data allowOfsDelta (s.setOffset e s.offset) e
          offset := s.offset + (recordOf data allowOfsDelta (s.setOffset e s.offset) e).length
          writtenList := s.writtenList ++ [e] }) ∧
      PackWritten data allowOfsDelta preferredBase delta start (writeOneBody data allowOfsDelta s e).2 := by
  have hpos := @length_writeObject_pos α data allowOfsDelta (s.setOffset e s.offset).delta
    (s.setOffset e s.offset).idxOffset e
  have hself : (s.setOffset e s.offset).idxOffset e = s.offset := Function.update_self _ _ _
  have hother : ∀ x, x ≠ e → (s.setOffset e s.offset).idxOffset x = s.idxOffset x := fun x hx =>
    Function.update_of_ne hx _ _
  have hoffset : 2 ≤ s.offset := by
    rw [h.offset_eq, h.file_eq, List.length_append]
    exact hstart.trans (Nat.le_add_right _ _)
  have hwritten : ∀ x ∈ s.writtenList, (s.setOffset e s.offset).idxOffset x = s.idxOffset x := fun x hx =>
    hother x fun heq => hnotin (heq ▸ hx)
  have hpreferred : ∀ x, preferredBase x = true → (s.setOffset e s.offset).idxOffset x = 0 := fun x hx => by
    rw [hother x fun heq => by rw [heq, hpref] at hx; cases hx]
    exact h.not_preferred x hx
  have hrecord : ∀ l : List α, (∀ x ∈ l, x ∈ s.writtenList) →
      l.map (recordOf data allowOfsDelta (s.setOffset e s.offset)) = l.map (recordOf data allowOfsDelta s) :=
    fun l hl => List.map_congr_left fun x hx => h.record_congr hwritten hpreferred (hl x hx)
  have hbody : writeOneBody data allowOfsDelta s e =
      (.written, { (s.setOffset e s.offset) with
        file := s.file ++ recordOf data allowOfsDelta (s.setOffset e s.offset) e
        offset := s.offset + (recordOf data allowOfsDelta (s.setOffset e s.offset) e).length
        writtenList := s.writtenList ++ [e] }) := by
    rw [writeOneBody]
    dsimp only
    rw [if_neg hpos.ne']
    rfl
  have hsplits : ∀ before x after, s.writtenList ++ [e] = before ++ x :: after →
      (before = s.writtenList ∧ x = e) ∨ ∃ after', s.writtenList = before ++ x :: after' :=
    fun before x after hsplit => by
      rcases List.eq_nil_or_concat after with rfl | ⟨after', last, rfl⟩
      · obtain ⟨hl, hr⟩ := List.append_inj' hsplit rfl
        exact .inl ⟨hl.symm, (List.singleton_inj.mp hr).symm⟩
      · rw [List.concat_eq_append, ← List.cons_append, ← List.append_assoc] at hsplit
        exact .inr ⟨after', (List.append_inj' hsplit rfl).1⟩
  refine ⟨hbody, ?_⟩
  rw [hbody]
  refine ⟨h.delta_eq, ?_, hpreferred, fun x => ?_, ?_, ?_, fun before x after hsplit => ?_,
    fun before x after hsplit base hx hp => ?_⟩
  · exact List.nodup_append.mpr ⟨h.nodup, List.nodup_singleton e, fun a ha b hb heq =>
      hnotin (by rw [← List.mem_singleton.mp hb, ← heq]; exact ha)⟩
  · dsimp only
    rw [List.mem_append, List.mem_singleton]
    by_cases hx : x = e
    · rw [hx, hself]
      exact ⟨fun _ => hoffset, fun _ => .inr rfl⟩
    · rw [hother x hx, or_iff_left hx]
      exact h.mem x
  · dsimp only
    rw [List.map_append, List.flatten_append, ← List.append_assoc]
    congr 1
    · exact h.file_eq.trans (by rw [← hrecord _ fun x hx => hx])
    · rw [List.map_singleton, List.flatten_singleton]
  · dsimp only
    rw [List.length_append, h.offset_eq]
  · rcases hsplits before x after hsplit with ⟨rfl, rfl⟩ | ⟨after', hsplit'⟩
    · refine hself.trans (h.offset_eq.trans (congrArg List.length (h.file_eq.trans ?_)))
      rw [← hrecord _ fun x hx => hx]
    · have hmem : x ∈ s.writtenList := by
        rw [hsplit']
        exact List.mem_append_right _ List.mem_cons_self
      refine (hwritten x hmem).trans ((h.record_at before x after' hsplit').trans ?_)
      rw [← hrecord before fun y hy => by rw [hsplit']; exact List.mem_append_left _ hy]
  · rcases hsplits before x after hsplit with ⟨rfl, rfl⟩ | ⟨after', hsplit'⟩
    · exact hbase base hx hp
    · exact h.base_before before x after' hsplit' base hx hp

structure WroteOne (data : PackData α) (allowOfsDelta : Bool) (preferredBase : α → Bool) (delta : α → Option α)
    (start : List UInt8) (s : WriteState α) (e : α) (r : WriteOneStatus × WriteState α) : Prop where
  status : r.1 = .skip ∨ r.1 = .written
  pack : PackWritten data allowOfsDelta preferredBase delta start r.2
  kept : ∀ x, s.idxOffset x ≠ 0 → r.2.idxOffset x = s.idxOffset x
  marks : ∀ x, r.2.idxOffset x = 1 → s.idxOffset x = 1
  done : preferredBase e = true ∨ e ∈ r.2.writtenList

lemma wroteOne_body {s s₁ : WriteState α} (h : PackWritten data allowOfsDelta preferredBase delta start s₁)
    (hstart : 2 ≤ start.length) {e : α} (he : s.idxOffset e = 0) (hnotin : e ∉ s₁.writtenList)
    (hpref : preferredBase e = false)
    (hbase : ∀ base, delta e = some base → preferredBase base = false → base ∈ s₁.writtenList)
    (hkept : ∀ x, x ≠ e → s.idxOffset x ≠ 0 → s₁.idxOffset x = s.idxOffset x)
    (hmarks : ∀ x, x ≠ e → s₁.idxOffset x = 1 → s.idxOffset x = 1) :
    WroteOne data allowOfsDelta preferredBase delta start s e (writeOneBody data allowOfsDelta s₁ e) := by
  obtain ⟨hbody, hpack⟩ := h.snoc hstart hnotin hpref hbase
  have hoffsets : (writeOneBody data allowOfsDelta s₁ e).2.idxOffset = Function.update s₁.idxOffset e s₁.offset := by
    rw [hbody]
    rfl
  have hmem : e ∈ (writeOneBody data allowOfsDelta s₁ e).2.writtenList := by
    rw [hbody]
    exact List.mem_append_right _ List.mem_cons_self
  refine ⟨.inr (by rw [hbody]), hpack, fun x hx => ?_, fun x hx => ?_, .inr hmem⟩
  · have hne : x ≠ e := fun heq => hx (heq ▸ he)
    rw [hoffsets, Function.update_of_ne hne]
    exact hkept x hne hx
  · have hne : x ≠ e := fun heq => by
      have hle := (hpack.mem e).mp hmem
      rw [heq] at hx
      omega
    rw [hoffsets, Function.update_of_ne hne] at hx
    exact hmarks x hne hx

theorem writeOne_spec [Fintype α] (hstart : 2 ≤ start.length) {e : α} {k : Nat} (hchain : ChainLength delta e k)
    {s : WriteState α} (h : PackWritten data allowOfsDelta preferredBase delta start s)
    (hmarks : ∀ x m, ChainLength delta x m → s.idxOffset x = 1 → k < m) :
    WroteOne data allowOfsDelta preferredBase delta start s e (writeOne data allowOfsDelta preferredBase s e) := by
  induction hchain generalizing s with
  | @base e hdelta =>
    have hunmarked : s.idxOffset e ≠ 1 := fun hmark => absurd (hmarks e 0 (.base hdelta) hmark) (lt_irrefl _)
    rw [writeOne, if_neg hunmarked]
    split_ifs with hskip
    · refine ⟨.inl rfl, h, fun _ _ => rfl, fun _ hx => hx, ?_⟩
      rcases hskip with hoff | hpref
      · exact .inr ((h.mem e).mpr (by omega))
      · exact .inl hpref
    · rw [not_or, not_not, Bool.not_eq_true] at hskip
      rw [h.delta_eq, hdelta]
      refine wroteOne_body h hstart hskip.1 (fun hmem => ?_) hskip.2 (fun base hbase => ?_) (fun _ _ _ => rfl)
        fun _ _ hx => hx
      · have hle := (h.mem e).mp hmem
        rw [hskip.1] at hle
        exact absurd hle (by decide)
      · rw [hdelta] at hbase
        cases hbase
  | @link e base n hdelta hrest ih =>
    have hself : ChainLength delta e (n + 1) := .link hdelta hrest
    have hunmarked : s.idxOffset e ≠ 1 := fun hmark => absurd (hmarks e _ hself hmark) (lt_irrefl _)
    rw [writeOne, if_neg hunmarked]
    split_ifs with hskip
    · refine ⟨.inl rfl, h, fun _ _ => rfl, fun _ hx => hx, ?_⟩
      rcases hskip with hoff | hpref
      · exact .inr ((h.mem e).mpr (by omega))
      · exact .inl hpref
    · rw [not_or, not_not, Bool.not_eq_true] at hskip
      have hnotin : e ∉ s.writtenList := fun hmem => by
        have hle := (h.mem e).mp hmem
        rw [hskip.1] at hle
        exact absurd hle (by decide)
      have hmark : (s.setOffset e 1).idxOffset e = 1 := Function.update_self _ _ _
      have hother : ∀ x, x ≠ e → (s.setOffset e 1).idxOffset x = s.idxOffset x := fun x hx =>
        Function.update_of_ne hx _ _
      have h₁ : PackWritten data allowOfsDelta preferredBase delta start (s.setOffset e 1) := by
        refine h.of_offsets (fun x hx => hother x fun heq => hnotin (heq ▸ hx)) (fun x hx => ?_) fun x hx => ?_
        · rw [← h.not_preferred x hx]
          exact hother x fun heq => by rw [heq, hskip.2] at hx; cases hx
        · by_cases hxe : x = e
          · rw [hxe]
            exact hmark.trans_lt (by decide)
          · exact (hother x hxe).trans_lt (Nat.lt_of_not_le fun hle => hx ((h.mem x).mpr hle))
      have hr := ih h₁ fun x m hx hxmark => by
        by_cases hxe : x = e
        · rw [hxe] at hx
          exact Nat.lt_of_succ_le (hx.unique hself).ge
        · rw [hother x hxe] at hxmark
          exact (Nat.lt_succ_self n).trans (hmarks x m hx hxmark)
      have hekept := hr.kept e (by rw [hmark]; exact one_ne_zero)
      rw [hmark] at hekept
      have hbody := @wroteOne_body α _ data allowOfsDelta preferredBase delta start s
        (writeOne data allowOfsDelta preferredBase (s.setOffset e 1) base).2 hr.pack hstart e hskip.1
        (fun hmem => by
          have hle := (hr.pack.mem e).mp hmem
          rw [hekept] at hle
          exact absurd hle (by decide)) hskip.2
        (fun b hb hpref => by
          rw [hdelta, Option.some_inj] at hb
          subst hb
          exact hr.done.resolve_left (by rw [hpref]; decide))
        (fun x hx hnonzero => by rw [hr.kept x (by rw [hother x hx]; exact hnonzero), hother x hx])
        fun x hx hxmark => by rw [← hother x hx]; exact hr.marks x hxmark
      rw [h.delta_eq, hdelta]
      dsimp only
      rcases hr.status with hstatus | hstatus <;> rw [hstatus] <;> exact hbody

lemma writeAll_spec [Fintype α] (hstart : 2 ≤ start.length) (hacyclic : ∀ e, ∃ k, ChainLength delta e k)
    (order : List α) {s : WriteState α} (h : PackWritten data allowOfsDelta preferredBase delta start s)
    (hmarks : ∀ x, s.idxOffset x ≠ 1) :
    PackWritten data allowOfsDelta preferredBase delta start (writeAll data allowOfsDelta preferredBase order s) ∧
      s.writtenList ⊆ (writeAll data allowOfsDelta preferredBase order s).writtenList ∧
      ∀ e ∈ order, preferredBase e = true ∨
        e ∈ (writeAll data allowOfsDelta preferredBase order s).writtenList := by
  induction order generalizing s with
  | nil => exact ⟨h, List.Subset.refl _, fun e he => absurd he List.not_mem_nil⟩
  | cons e order ih =>
    obtain ⟨k, hk⟩ := hacyclic e
    have hr := writeOne_spec hstart hk h fun x m _ hx => absurd hx (hmarks x)
    have hsubset : s.writtenList ⊆ (writeOne data allowOfsDelta preferredBase s e).2.writtenList := fun x hx => by
      have hle := (h.mem x).mp hx
      rw [hr.pack.mem, hr.kept x (by omega)]
      exact hle
    obtain ⟨hpack, hsubset', hdone⟩ := ih hr.pack fun x hx => hmarks x (hr.marks x hx)
    have hnotbust : (writeOne data allowOfsDelta preferredBase s e).1 ≠ .bust := by
      rcases hr.status with hstatus | hstatus <;> rw [hstatus] <;> decide
    rw [writeAll, if_neg hnotbust]
    refine ⟨hpack, List.Subset.trans hsubset hsubset', fun x hx => ?_⟩
    rcases List.mem_cons.mp hx with rfl | hx
    · exact hr.done.imp_right fun hmem => hsubset' hmem
    · exact hdone x hx

def startWriting (delta : α → Option α) (start : List UInt8) : WriteState α where
  idxOffset := fun _ => 0
  delta := delta
  file := start
  offset := start.length
  writtenList := []

omit [DecidableEq α] in
lemma packWritten_start (delta : α → Option α) (start : List UInt8) :
    PackWritten data allowOfsDelta preferredBase delta start (startWriting delta start) where
  delta_eq := rfl
  nodup := List.nodup_nil
  not_preferred _ _ := rfl
  mem e := ⟨fun hmem => absurd hmem List.not_mem_nil, fun hle => absurd hle (show ¬2 ≤ 0 by decide)⟩
  file_eq := (List.append_nil _).symm
  offset_eq := rfl
  record_at before e after hsplit := by simp [startWriting] at hsplit
  base_before before e after hsplit := by simp [startWriting] at hsplit

/-- The write order is a permutation of the objects, and writing in that order leaves a pack with
every object but the preferred bases once, each behind its base and at its offset. -/
theorem writePack_spec {n : Nat} (p : ToPack n) (hacyclic : ∀ e, ∃ k, ChainLength p.delta e k) {maxLayers : Nat}
    (hlayer : ∀ e, p.layer e < maxLayers) (data : PackData (Fin n)) (allowOfsDelta : Bool) {start : List UInt8}
    (hstart : 12 ≤ start.length) :
    ∃ wo s, (∃ bound, ∀ fuel, bound ≤ fuel → computeWriteOrder fuel p maxLayers = some (some wo)) ∧
      wo.Perm (List.finRange n) ∧
      writeAll data allowOfsDelta p.preferredBase wo (startWriting p.delta start) = s ∧
      PackWritten data allowOfsDelta p.preferredBase p.delta start s ∧
      ∀ e, e ∈ s.writtenList ↔ p.preferredBase e = false := by
  obtain ⟨wo, hfuel, hperm⟩ := computeWriteOrder_eventually hacyclic hlayer
  obtain ⟨hpack, -, hdone⟩ := @writeAll_spec _ _ data allowOfsDelta p.preferredBase p.delta start _
    ((by decide : 2 ≤ 12).trans hstart) hacyclic wo _ (packWritten_start p.delta start) fun x hx => by cases hx
  refine ⟨wo, _, Filter.eventually_atTop.mp hfuel, hperm, rfl, hpack, fun e => ⟨fun hmem => ?_, fun hpref => ?_⟩⟩
  · have hle := (hpack.mem e).mp hmem
    rw [← Bool.not_eq_true]
    intro hpref
    rw [hpack.not_preferred e hpref] at hle
    exact absurd hle (by decide)
  · refine (hdone e (hperm.mem_iff.mpr (List.mem_finRange e))).resolve_left ?_
    rw [hpref]
    decide

def sampleToPack : ToPack 3 where
  delta := fun e => if e = 0 then some 2 else none
  type := fun _ => objCommit
  tagged := fun e => e = 1
  layer := fun e => if e = 2 then 1 else 0
  preferredBase := fun e => e = 1

def sampleData : PackData (Fin 3) where
  id := fun e => [UInt8.ofNat e.val]
  wholeType := fun _ => objCommit
  wholeSize := fun _ => 20
  whole := fun _ => [120]
  deltaSize := fun _ => 5
  deltaData := fun _ => [121]

theorem writePack_spec_sample :
    ∃ wo s, wo.Perm (List.finRange 3) ∧
      writeAll sampleData true sampleToPack.preferredBase wo
        (startWriting sampleToPack.delta (List.replicate 12 0)) = s ∧
      PackWritten sampleData true sampleToPack.preferredBase sampleToPack.delta (List.replicate 12 0) s ∧
      ∀ e, e ∈ s.writtenList ↔ sampleToPack.preferredBase e = false := by
  have hacyclic : ∀ e, ∃ k, ChainLength sampleToPack.delta e k := fun e => by
    by_cases he : e = 0
    · exact ⟨1, .link (by rw [he]; rfl) (.base rfl)⟩
    · exact ⟨0, .base (if_neg he)⟩
  have hlayer : ∀ e, sampleToPack.layer e < 2 := by decide
  obtain ⟨wo, s, -, hperm, hrest⟩ := writePack_spec sampleToPack hacyclic hlayer sampleData true
    (show 12 ≤ (List.replicate 12 (0 : UInt8)).length by decide)
  exact ⟨wo, s, hperm, hrest⟩

end GitCore.Pack
