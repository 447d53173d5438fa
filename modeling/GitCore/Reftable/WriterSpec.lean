import GitCore.Reftable.BlockSpec
import GitCore.Reftable.Writer

/-!
# When a section gets a finite index

A level of the index has fewer records than the level below exactly if two neighbours of the level below fit into
one block.
-/

namespace GitCore.Reftable.Structs

variable {deflate : List UInt8 → List UInt8} {w : Writer}

lemma Writer.flushBlock_entries {bw : BlockWriter} (hbw : w.blockWriter = some bw) (hne : bw.entries ≠ 0) :
    w.flushBlock deflate = w.flushNonemptyBlock deflate bw := by
  rw [Writer.flushBlock, hbw]
  exact if_neg hne

lemma Writer.flushBlock_empty {bw : BlockWriter} (hbw : w.blockWriter = some bw) (hne : bw.entries = 0) :
    w.flushBlock deflate = w := by
  rw [Writer.flushBlock, hbw]
  exact if_pos hne

lemma Writer.addRecord_eq {bw : BlockWriter} (hbw : w.blockWriter = some bw) {rec : Record}
    (hlast : w.lastKey < rec.key) (htype : bw.type = rec.type) :
    w.addRecord deflate rec = { w with lastKey := rec.key }.addToBlock deflate bw rec := by
  rw [Writer.addRecord, if_neg (not_le.mpr (reftableBufCmp_neg.mpr hlast))]
  simp only [hbw, Option.isNone_some, Bool.false_eq_true, if_false, htype, ne_eq, not_true_eq_false]

variable {w' : Writer}

lemma Writer.addRecord_checks {bw : BlockWriter} (hbw : w.blockWriter = some bw) {rec : Record}
    (h : w.addRecord deflate rec = .ok w') : w.lastKey < rec.key ∧ bw.type = rec.type := by
  have hlast : w.lastKey < rec.key := by
    by_contra hle
    rw [Writer.addRecord, if_pos (not_lt.mp fun hneg => hle (reftableBufCmp_neg.mp hneg))] at h
    cases h
  have htype : bw.type = rec.type := by
    by_contra hne
    rw [Writer.addRecord, if_neg (not_le.mpr (reftableBufCmp_neg.mpr hlast))] at h
    simp only [hbw, Option.isNone_some, Bool.false_eq_true, if_false, ne_eq, hne, not_false_eq_true, if_true] at h
    cases h
  exact ⟨hlast, htype⟩

lemma Writer.addRecord_cases {bw : BlockWriter} (hbw : w.blockWriter = some bw) {rec : Record}
    (h : w.addRecord deflate rec = .ok w') :
    (∃ bw', bw.add rec = .ok bw' ∧ w'.blockWriter = some bw' ∧ w'.index = w.index ∧ w'.next = w.next ∧
      w'.opts = w.opts) ∨
    ∃ bw', bw.add rec = .error .entryTooBig ∧ ((w.flushBlock deflate).freshBlock rec.type).add rec = .ok bw' ∧
      w'.blockWriter = some bw' ∧ w'.index = (w.flushBlock deflate).index ∧
        w'.next = (w.flushBlock deflate).next ∧ w'.opts = (w.flushBlock deflate).opts := by
  obtain ⟨hlast, htype⟩ := Writer.addRecord_checks hbw h
  rw [Writer.addRecord_eq hbw hlast htype, Writer.addToBlock] at h
  cases hadd : bw.add rec with
  | ok bw' =>
    rw [hadd] at h
    obtain rfl := Except.ok.inj h
    exact .inl ⟨bw', rfl, rfl, rfl, rfl, rfl⟩
  | error e =>
    rw [hadd] at h
    cases e with
    | entryTooBig =>
      have hflush : ({ w with lastKey := rec.key }.flushBlock deflate).addFresh rec =
          (w.flushBlock deflate).addFresh rec := by
        by_cases hentries : bw.entries = 0
        · rw [Writer.flushBlock_empty hbw hentries, @Writer.flushBlock_empty deflate { w with lastKey := rec.key } bw hbw hentries]
          rfl
        · rw [Writer.flushBlock_entries hbw hentries, @Writer.flushBlock_entries deflate { w with lastKey := rec.key } bw hbw hentries]
          rfl
      obtain ⟨bw', hfresh, rfl⟩ := map_eq_ok.mp (hflush.symm.trans h)
      exact .inr ⟨bw', rfl, hfresh, rfl, rfl, rfl, rfl⟩
    | format => cases h
    | outOfMemory => cases h
    | api => cases h
    | zlib => cases h
    | failure => cases h
    | abort => cases h

/-- Records have been added, the last one of them to `bw`; the last keys of the blocks are some of their keys. -/
structure Writer.Holding (w : Writer) (bw : BlockWriter) (opts : WriteOptions) (keys : List (List UInt8)) : Prop where
  opts : w.opts = opts
  blockWriter : w.blockWriter = some bw
  entries : bw.entries ≠ 0
  keys : (w.index.map IndexRecord.lastKey ++ [bw.lastKey]).Sublist keys

lemma Writer.Holding.flushBlock {bw : BlockWriter} {opts : WriteOptions} {keys : List (List UInt8)}
    (h : w.Holding bw opts keys) :
    (w.flushBlock deflate).opts = opts ∧ (w.flushBlock deflate).index.length = w.index.length + 1 ∧
      (w.flushBlock deflate).index ≠ [] ∧ ((w.flushBlock deflate).index.map IndexRecord.lastKey).Sublist keys := by
  rw [Writer.flushBlock_entries h.blockWriter h.entries]
  refine ⟨h.opts, List.length_append, ?_, ?_⟩
  · exact List.append_ne_nil_of_right_ne_nil _ (List.cons_ne_nil _ _)
  · have hkeys := h.keys
    rw [Writer.flushNonemptyBlock]
    rwa [List.map_append]

variable {bw bw' : BlockWriter}

lemma BlockWriter.add_lastKey {rec : Record} (h : bw.add rec = .ok bw') :
    bw'.lastKey = rec.key ∧ bw'.entries = bw.entries + 1 ∧ rec.key ≠ [] := by
  obtain ⟨hkey, -, rfl⟩ := BlockWriter.add_eq_ok h
  exact ⟨rfl, rfl, hkey⟩

lemma Writer.addRecord_first {bw : BlockWriter} (hbw : w.blockWriter = some bw) (hempty : bw.entries = 0)
    (hindex : w.index = []) {rec : Record} (hfresh : bw = w.freshBlock rec.type)
    (h : w.addRecord deflate rec = .ok w') :
    ∃ bw', bw.add rec = .ok bw' ∧ w'.Holding bw' w.opts [rec.key] ∧ w'.index = [] ∧ w'.next = w.next := by
  rcases Writer.addRecord_cases hbw h with hcase | hcase
  · obtain ⟨bw', hadd, hbw', hindex', hnext, hopts⟩ := hcase
    obtain ⟨hlast, hentries, -⟩ := BlockWriter.add_lastKey hadd
    rw [hindex] at hindex'
    refine ⟨bw', hadd, ⟨hopts, hbw', by omega, ?_⟩, hindex', hnext⟩
    rw [hindex', hlast]
    exact List.Sublist.refl _
  · obtain ⟨bw', hfull, hadd, -⟩ := hcase
    rw [Writer.flushBlock_empty hbw hempty, ← hfresh, hfull] at hadd
    cases hadd

lemma Writer.Holding.addRecord {bw : BlockWriter} {opts : WriteOptions} {keys : List (List UInt8)}
    (h : w.Holding bw opts keys) {rec : Record} (hadd : w.addRecord deflate rec = .ok w') :
    ∃ bw', w'.Holding bw' opts (keys ++ [rec.key]) ∧ rec.key ≠ [] ∧
      ((bw.add rec = .ok bw' ∧ w'.index.length = w.index.length ∧ w'.next = w.next) ∨
        bw.add rec = .error .entryTooBig ∧ ((w.flushBlock deflate).freshBlock rec.type).add rec = .ok bw' ∧
          w'.index.length = w.index.length + 1 ∧ w'.next = (w.flushBlock deflate).next) := by
  rcases Writer.addRecord_cases h.blockWriter hadd with hcase | hcase
  · obtain ⟨bw', hadd', hbw', hindex, hnext, hopts⟩ := hcase
    obtain ⟨hlast, hentries, hkey⟩ := BlockWriter.add_lastKey hadd'
    refine ⟨bw', ⟨hopts.trans h.opts, hbw', by omega, ?_⟩, hkey, .inl ⟨hadd', by rw [hindex], hnext⟩⟩
    rw [hindex, hlast]
    exact ((List.sublist_append_left _ _).trans h.keys).append (List.Sublist.refl _)
  · obtain ⟨bw', hfull, hadd', hbw', hindex, hnext, hopts⟩ := hcase
    obtain ⟨hlast, hentries, hkey⟩ := BlockWriter.add_lastKey hadd'
    obtain ⟨hopts', hlen, -, hkeys⟩ := @Writer.Holding.flushBlock deflate _ _ _ _ h
    refine ⟨bw', ⟨hopts.trans hopts', hbw', by omega, ?_⟩, hkey, .inr ⟨hfull, hadd', by rw [hindex, hlen], hnext⟩⟩
    rw [hindex, hlast]
    exact hkeys.append (List.Sublist.refl _)

def WriteOptions.emptyBlock (opts : WriteOptions) (type : BlockType) : BlockWriter :=
  .init type opts.hashId opts.blockSize 0 opts.restartInterval

def FitsAlone (opts : WriteOptions) (a : Record) : Prop :=
  ∃ bw, (opts.emptyBlock a.type).add a = .ok bw

def FitTogether (opts : WriteOptions) (a b : Record) : Prop :=
  ∃ bw, (opts.emptyBlock a.type).addAll [a, b] = .ok bw

def Lone (opts : WriteOptions) (recs : List Record) : Prop :=
  recs.IsChain fun a b => ¬FitTogether opts a b

variable {opts : WriteOptions}

lemma fitTogether_iff {a b : Record} {bw : BlockWriter}
    (h : (opts.emptyBlock a.type).add a = .ok bw) : FitTogether opts a b ↔ ∃ bw', bw.add b = .ok bw' := by
  have hall : (opts.emptyBlock a.type).addAll [a, b] = bw.add b := by
    rw [BlockWriter.addAll, List.foldlM_cons, h]
    change (bw.add b >>= pure) = _
    exact bind_pure _
  rw [FitTogether, hall]

lemma lone_append {recs : List Record} {a b : Record} :
    Lone opts (recs ++ [a] ++ [b]) ↔ Lone opts (recs ++ [a]) ∧ ¬FitTogether opts a b := by
  rw [Lone, Lone, List.isChain_append]
  simp

lemma not_lone_iff {recs : List Record} :
    ¬Lone opts recs ↔ ∃ a b, [a, b] <:+: recs ∧ FitTogether opts a b := by
  rw [Lone, List.isChain_iff_forall_rel_of_append_cons_cons]
  push Not
  constructor
  · rintro ⟨a, b, front, back, hsplit, hfit⟩
    exact ⟨a, b, ⟨front, back, by rw [hsplit, List.append_assoc]; rfl⟩, hfit⟩
  · rintro ⟨a, b, hinfix, hfit⟩
    obtain ⟨front, back, hsplit⟩ := hinfix
    exact ⟨a, b, front, back, by rw [← hsplit, List.append_assoc]; rfl, hfit⟩

lemma Writer.freshBlock_eq (hopts : w.opts = opts) (hnext : w.next ≠ 0)
    (type : BlockType) : w.freshBlock type = opts.emptyBlock type := by
  rw [Writer.freshBlock, if_neg hnext, hopts]
  rfl

/-- The records of a level up to `r` are in blocks: each in a block of its own, or some of them together. -/
structure Writer.Packs (w : Writer) (bw : BlockWriter) (opts : WriteOptions) (done : List Record) (r : Record) :
    Prop where
  holding : w.Holding bw opts ((done ++ [r]).map Record.key)
  next : w.next ≠ 0
  lone : Lone opts (done ++ [r]) → w.index.length = done.length ∧ (opts.emptyBlock r.type).add r = .ok bw ∧
    ∀ a ∈ done ++ [r], FitsAlone opts a
  shared : ¬Lone opts (done ++ [r]) → w.index.length < done.length

lemma Writer.Packs.addRecord {bw : BlockWriter} {opts : WriteOptions} {done : List Record}
    {r r' : Record} (h : w.Packs bw opts done r) (hadd : w.addRecord deflate r' = .ok w') :
    ∃ bw', w'.Packs bw' opts (done ++ [r]) r' := by
  obtain ⟨bw', hholding, -, hcases⟩ := h.holding.addRecord hadd
  obtain ⟨hopts, -, hne, -⟩ := @Writer.Holding.flushBlock deflate _ _ _ _ h.holding
  have hflushed : (w.flushBlock deflate).next ≠ 0 := (w.flushBlock deflate).written hne
  refine ⟨bw', ?_, ?_, ?_, ?_⟩
  · rw [List.map_append]
    exact hholding
  · rcases hcases with hsame | hfull
    · rw [hsame.2.2]
      exact h.next
    · rw [hfull.2.2.2]
      exact hflushed
  · intro hlone
    obtain ⟨hbefore, hnot⟩ := lone_append.mp hlone
    obtain ⟨hlen, hbw, halone⟩ := h.lone hbefore
    rcases hcases with hsame | hfull
    · exact absurd ((fitTogether_iff hbw).mpr ⟨bw', hsame.1⟩) hnot
    · have hfresh : (opts.emptyBlock r'.type).add r' = .ok bw' := by
        rw [← Writer.freshBlock_eq hopts hflushed]
        exact hfull.2.1
      refine ⟨?_, hfresh, fun a ha => ?_⟩
      · rw [hfull.2.2.1, hlen, List.length_append, List.length_singleton]
      · rcases List.mem_append.mp ha with hold | hnew
        · exact halone a hold
        · rw [List.mem_singleton.mp hnew]
          exact ⟨bw', hfresh⟩
  · intro hshared
    rw [List.length_append, List.length_singleton]
    by_cases hbefore : Lone opts (done ++ [r])
    · obtain ⟨hlen, hbw, -⟩ := h.lone hbefore
      rcases hcases with hsame | hfull
      · rw [hsame.2.1, hlen]
        exact Nat.lt_succ_self _
      · refine absurd (lone_append.mpr ⟨hbefore, fun hfit => ?_⟩) hshared
        obtain ⟨bw'', hadd''⟩ := (fitTogether_iff hbw).mp hfit
        rw [hfull.1] at hadd''
        cases hadd''
    · have hlt := h.shared hbefore
      rcases hcases with hsame | hfull
      · rw [hsame.2.1]
        omega
      · rw [hfull.2.2.1]
        omega

lemma Writer.Packs.addRecords {bw : BlockWriter} {opts : WriteOptions} {done : List Record}
    {r : Record} (h : w.Packs bw opts done r) {recs : List Record} (hadd : w.addRecords deflate recs = .ok w') :
    ∃ bw' done' r', done ++ r :: recs = done' ++ [r'] ∧ w'.Packs bw' opts done' r' := by
  induction recs generalizing w bw done r with
  | nil =>
    obtain rfl := Except.ok.inj hadd
    exact ⟨bw, done, r, rfl, h⟩
  | cons r' recs ih =>
    rw [Writer.addRecords, List.foldlM_cons, bind_eq_ok] at hadd
    obtain ⟨w₁, hfirst, hadd⟩ := hadd
    obtain ⟨bw₁, h₁⟩ := h.addRecord hfirst
    obtain ⟨bw', done', r'', hsplit, h'⟩ := ih h₁ hadd
    exact ⟨bw', done', r'', by rw [List.append_cons, hsplit], h'⟩

def Writer.indexRecords (w : Writer) : List Record :=
  w.index.map .index

@[simp] lemma Writer.length_indexRecords (w : Writer) : w.indexRecords.length = w.index.length :=
  List.length_map _

lemma Writer.keys_indexRecords (w : Writer) : w.indexRecords.map Record.key = w.index.map IndexRecord.lastKey :=
  List.map_map

def Writer.levelStart (w : Writer) : Writer :=
  { w.reinitBlockWriter .index with
    index := []
    written := w.written_nil }

lemma Writer.indexLevel_eq_ok :
    w.indexLevel deflate = .ok w' ↔
      ∃ w₁, w.levelStart.addRecords deflate w.indexRecords = .ok w₁ ∧ w₁.flushBlock deflate = w' :=
  map_eq_ok

structure LevelOf (w w' : Writer) : Prop where
  opts : w'.opts = w.opts
  keys : (w'.index.map IndexRecord.lastKey).Sublist (w.index.map IndexRecord.lastKey)
  lone : Lone w.opts w.indexRecords → w'.index.length = w.index.length ∧ ∀ a ∈ w.indexRecords, FitsAlone w.opts a
  shared : ¬Lone w.opts w.indexRecords → w'.index.length < w.index.length

lemma Writer.levelOf (hne : w.index ≠ []) (h : w.indexLevel deflate = .ok w') : LevelOf w w' := by
  have hnext : w.next ≠ 0 := w.written hne
  obtain ⟨w₂, hadd, rfl⟩ := Writer.indexLevel_eq_ok.mp h
  cases hrecs : w.indexRecords with
  | nil => exact absurd (List.map_eq_nil_iff.mp hrecs) hne
  | cons r recs =>
    have hr : r.type = .index := by
      have hmem : r ∈ w.indexRecords := hrecs ▸ List.mem_cons_self
      obtain ⟨a, -, rfl⟩ := List.mem_map.mp hmem
      rfl
    rw [hrecs, Writer.addRecords, List.foldlM_cons, bind_eq_ok] at hadd
    obtain ⟨w₁, hfirst, hadd⟩ := hadd
    have hfresh : w.freshBlock .index = w.levelStart.freshBlock r.type := by
      rw [hr]
      rfl
    obtain ⟨bw, hbw, hholding, hnil, hnext'⟩ :=
      @Writer.addRecord_first _ _ _ (w.freshBlock .index) rfl rfl rfl _ hfresh hfirst
    rw [Writer.freshBlock_eq rfl hnext, ← hr] at hbw
    have hpacks : w₁.Packs bw w.opts [] r := by
      refine ⟨hholding, ?_, fun _ => ⟨?_, hbw, fun a ha => ?_⟩, fun hlone => absurd (List.isChain_singleton _) hlone⟩
      · rw [hnext']
        exact hnext
      · rw [hnil]
        rfl
      · rw [List.mem_singleton.mp ha]
        exact ⟨bw, hbw⟩
    obtain ⟨bw', done', r', hsplit, hpacks'⟩ := hpacks.addRecords hadd
    rw [List.nil_append] at hsplit
    obtain ⟨hopts, hlen, -, hkeys⟩ := @Writer.Holding.flushBlock deflate _ _ _ _ hpacks'.holding
    have hcount : w.index.length = done'.length + 1 := by
      rw [← w.length_indexRecords, hrecs, hsplit, List.length_append, List.length_singleton]
    refine ⟨hopts, ?_, ?_, ?_⟩
    · rw [← w.keys_indexRecords, hrecs, hsplit]
      exact hkeys
    · rw [hrecs, hsplit, hlen, hcount]
      intro hlone
      obtain ⟨hlen', -, halone⟩ := hpacks'.lone hlone
      exact ⟨by rw [hlen'], halone⟩
    · rw [hrecs, hsplit, hlen, hcount]
      exact fun hlone => Nat.succ_lt_succ (hpacks'.shared hlone)

lemma Writer.addRecord_of_add (hbw : w.blockWriter = some bw) {rec : Record}
    (hlast : w.lastKey < rec.key) (htype : bw.type = rec.type) (hadd : bw.add rec = .ok bw') :
    ∃ w', w.addRecord deflate rec = .ok w' ∧ w'.blockWriter = some bw' ∧ w'.opts = w.opts ∧ w'.index = w.index ∧
      w'.next = w.next ∧ w'.lastKey = rec.key := by
  rw [Writer.addRecord_eq hbw hlast htype, Writer.addToBlock, hadd]
  exact ⟨_, rfl, rfl, rfl, rfl, rfl, rfl⟩

lemma Writer.Holding.addRecord_full
    {keys : List (List UInt8)} (h : w.Holding bw opts keys) {rec : Record} (hlast : w.lastKey < rec.key)
    (htype : bw.type = rec.type) (hfull : ∀ bw', bw.add rec ≠ .ok bw')
    (hfresh : (opts.emptyBlock rec.type).add rec = .ok bw') :
    ∃ w', w.addRecord deflate rec = .ok w' ∧ w'.Holding bw' opts (keys ++ [rec.key]) ∧ w'.lastKey = [] ∧
      w'.index.length = w.index.length + 1 := by
  obtain ⟨hopts, hlen, hne, hkeys⟩ := @Writer.Holding.flushBlock deflate _ _ _ _ h
  obtain ⟨hlast', hentries, hkey⟩ := BlockWriter.add_lastKey hfresh
  have htooBig : bw.add rec = .error .entryTooBig := by
    have hadd := BlockWriter.add_eq bw rec
    rw [if_neg hkey] at hadd
    split_ifs at hadd with hroom
    · exact hadd
    · exact absurd hadd (hfull _)
  have hflush : ({ w with lastKey := rec.key }.flushBlock deflate).addFresh rec =
      (w.flushBlock deflate).addFresh rec := by
    rw [Writer.flushBlock_entries h.blockWriter h.entries,
      @Writer.flushBlock_entries deflate { w with lastKey := rec.key } bw h.blockWriter h.entries]
    rfl
  have hadd : w.addRecord deflate rec = (w.flushBlock deflate).addFresh rec := by
    rw [Writer.addRecord_eq h.blockWriter hlast htype, Writer.addToBlock, htooBig]
    exact hflush
  rw [hadd, Writer.addFresh, Writer.freshBlock_eq hopts ((w.flushBlock deflate).written hne), hfresh]
  refine ⟨_, rfl, ⟨hopts, rfl, by omega, ?_⟩, rfl, hlen⟩
  rw [hlast']
  exact hkeys.append (List.Sublist.refl _)

lemma BlockWriter.add_type {rec : Record} (h : bw.add rec = .ok bw') : bw'.type = bw.type := by
  obtain ⟨-, -, rfl⟩ := BlockWriter.add_eq_ok h
  rfl

lemma nil_lt_of_ne {key : List UInt8} (h : key ≠ []) : [] < key := by
  obtain ⟨b, bs, rfl⟩ := List.exists_cons_of_ne_nil h
  exact List.nil_lt_cons b bs

lemma Writer.Holding.addRecords_lone {bw : BlockWriter} {opts : WriteOptions} {keys : List (List UInt8)}
    {type : BlockType} (h : w.Holding bw opts keys) (hbw : bw.type = type) {recs : List Record}
    (htype : ∀ r ∈ recs, r.type = type) (halone : ∀ r ∈ recs, FitsAlone opts r)
    (hhead : ∀ r ∈ recs.head?, w.lastKey < r.key ∧ ∀ bw', bw.add r ≠ .ok bw') (hlone : Lone opts recs) :
    ∃ w' bw', w.addRecords deflate recs = .ok w' ∧ w'.Holding bw' opts (keys ++ recs.map Record.key) ∧
      w'.index.length = w.index.length + recs.length := by
  induction recs generalizing w bw keys with
  | nil => exact ⟨w, bw, rfl, by rwa [List.map_nil, List.append_nil], rfl⟩
  | cons r recs ih =>
    obtain ⟨hlast, hfull⟩ := hhead r rfl
    obtain ⟨bw', hfresh⟩ := halone r List.mem_cons_self
    have hr : r.type = type := htype r List.mem_cons_self
    obtain ⟨w₁, hadd, hholding, hnil, hlen⟩ :=
      @Writer.Holding.addRecord_full deflate _ _ _ _ _ h _ hlast (hbw.trans hr.symm) hfull hfresh
    have hhead' : ∀ r' ∈ recs.head?, w₁.lastKey < r'.key ∧ ∀ bw'', bw'.add r' ≠ .ok bw'' := by
      intro r' hr'
      cases recs with
      | nil => cases hr'
      | cons r'' recs =>
        obtain rfl := Option.some.inj hr'
        obtain ⟨bw'', hfresh'⟩ := halone r'' (List.mem_cons_of_mem _ List.mem_cons_self)
        constructor
        · rw [hnil]
          exact nil_lt_of_ne (BlockWriter.add_lastKey hfresh').2.2
        · intro bw₃ hadd₃
          exact (List.isChain_cons_cons.mp hlone).1 ((fitTogether_iff hfresh).mpr ⟨bw₃, hadd₃⟩)
    obtain ⟨w', bw'', hadds, hholding', hlen'⟩ := ih hholding ((BlockWriter.add_type hfresh).trans hr)
      (fun r' hr' => htype r' (List.mem_cons_of_mem _ hr')) (fun r' hr' => halone r' (List.mem_cons_of_mem _ hr'))
      hhead' (List.IsChain.tail hlone)
    refine ⟨w', bw'', ?_, ?_, ?_⟩
    · rw [Writer.addRecords, List.foldlM_cons, hadd]
      exact hadds
    · rw [List.map_cons, List.append_cons]
      exact hholding'
    · rw [hlen', hlen, List.length_cons]
      omega

lemma Writer.addRecord_start (hindex : w.index = []) (type : BlockType) {bw : BlockWriter} {rec : Record}
    (htype : rec.type = type) (hadd : (w.freshBlock type).add rec = .ok bw) :
    ∃ w', (w.reinitBlockWriter type).addRecord deflate rec = .ok w' ∧ w'.Holding bw w.opts [rec.key] ∧
      w'.lastKey = rec.key ∧ w'.index = [] := by
  obtain ⟨hlast, hentries, hkey⟩ := BlockWriter.add_lastKey hadd
  obtain ⟨w', hadd', hbw, hopts, hindex', -, hlast'⟩ := @Writer.addRecord_of_add deflate (w.reinitBlockWriter type)
    (w.freshBlock type) bw rfl rec (nil_lt_of_ne hkey) htype.symm hadd
  have hnil : w'.index = [] := hindex'.trans hindex
  refine ⟨w', hadd', ⟨hopts, hbw, by omega, ?_⟩, hlast', hnil⟩
  rw [hnil, hlast]
  exact List.Sublist.refl _

lemma Writer.addRecords_start (hindex : w.index = []) {type : BlockType} {bw : BlockWriter} {r : Record}
    {recs : List Record} (htype : ∀ r' ∈ r :: recs, r'.type = type) (hadd : (w.freshBlock type).add r = .ok bw)
    (halone : ∀ r' ∈ recs, FitsAlone w.opts r')
    (hhead : ∀ r' ∈ recs.head?, r.key < r'.key ∧ ∀ bw', bw.add r' ≠ .ok bw') (hlone : Lone w.opts recs) :
    ∃ w' bw', (w.reinitBlockWriter type).addRecords deflate (r :: recs) = .ok w' ∧
      w'.Holding bw' w.opts ((r :: recs).map Record.key) ∧ w'.index.length = recs.length := by
  have hr : r.type = type := htype r List.mem_cons_self
  obtain ⟨w₁, hfirst, hholding, hlast, hnil⟩ := @Writer.addRecord_start deflate w hindex type bw r hr hadd
  have hbw : bw.type = type := BlockWriter.add_type hadd
  obtain ⟨w', bw', hadds, hholding', hlen⟩ := @Writer.Holding.addRecords_lone deflate _ _ _ _ type hholding hbw recs
    (fun r' hr' => htype r' (List.mem_cons_of_mem _ hr')) halone (by rw [hlast]; exact hhead) hlone
  refine ⟨w', bw', ?_, hholding', ?_⟩
  · rw [Writer.addRecords, List.foldlM_cons, hfirst]
    exact hadds
  · rw [hlen, hnil]
    exact Nat.zero_add _

lemma Writer.indexLevel_lone (hne : w.index ≠ [])
    (hsorted : (w.index.map IndexRecord.lastKey).Pairwise (· < ·)) (hlone : Lone w.opts w.indexRecords)
    (halone : ∀ a ∈ w.indexRecords, FitsAlone w.opts a) : ∃ w', w.indexLevel deflate = .ok w' := by
  have hnext : w.next ≠ 0 := w.written hne
  rw [← w.keys_indexRecords] at hsorted
  have htype : ∀ r ∈ w.indexRecords, r.type = .index := by
    intro r hr
    obtain ⟨a, -, rfl⟩ := List.mem_map.mp hr
    rfl
  cases hrecs : w.indexRecords with
  | nil => exact absurd (List.map_eq_nil_iff.mp hrecs) hne
  | cons r recs =>
    rw [hrecs] at hsorted hlone halone htype
    obtain ⟨bw, hfresh⟩ := halone r List.mem_cons_self
    have hadd : (w.levelStart.freshBlock .index).add r = .ok bw := by
      rw [Writer.freshBlock_eq (w := w.levelStart) rfl hnext, ← htype r List.mem_cons_self]
      exact hfresh
    have hhead : ∀ r' ∈ recs.head?, r.key < r'.key ∧ ∀ bw', bw.add r' ≠ .ok bw' := by
      intro r' hr'
      cases recs with
      | nil => cases hr'
      | cons r'' recs =>
        obtain rfl := Option.some.inj hr'
        refine ⟨(List.pairwise_cons.mp hsorted).1 _ List.mem_cons_self, fun bw' hadd' => ?_⟩
        exact (List.isChain_cons_cons.mp hlone).1 ((fitTogether_iff hfresh).mpr ⟨bw', hadd'⟩)
    obtain ⟨w', -, hadds, -, -⟩ := @Writer.addRecords_start deflate w.levelStart rfl .index bw r recs htype hadd
      (fun r' hr' => halone r' (List.mem_cons_of_mem _ hr')) hhead (List.IsChain.tail hlone)
    refine ⟨_, Writer.indexLevel_eq_ok.mpr ⟨w', ?_, rfl⟩⟩
    rw [hrecs]
    exact hadds

lemma Writer.Holding.addRecords {bw : BlockWriter} {opts : WriteOptions} {keys : List (List UInt8)}
    (h : w.Holding bw opts keys) {recs : List Record} (hadd : w.addRecords deflate recs = .ok w') :
    ∃ bw', w'.Holding bw' opts (keys ++ recs.map Record.key) := by
  induction recs generalizing w bw keys with
  | nil =>
    obtain rfl := Except.ok.inj hadd
    exact ⟨bw, by rwa [List.map_nil, List.append_nil]⟩
  | cons r recs ih =>
    rw [Writer.addRecords, List.foldlM_cons, bind_eq_ok] at hadd
    obtain ⟨w₁, hfirst, hadd⟩ := hadd
    obtain ⟨bw₁, h₁, -⟩ := h.addRecord hfirst
    rw [List.map_cons, List.append_cons]
    exact ih h₁ hadd

lemma Writer.sorted_index {start w : Writer} (hstart : start.index = []) {type : BlockType} {recs : List Record}
    (hsorted : recs.Pairwise fun a b => a.key < b.key)
    (hw : (start.reinitBlockWriter type).addRecords deflate recs = .ok w) :
    ((w.flushBlock deflate).index.map IndexRecord.lastKey).Pairwise (· < ·) := by
  cases recs with
  | nil =>
    obtain rfl := Except.ok.inj hw
    rw [@Writer.flushBlock_empty _ _ (start.freshBlock type) rfl rfl]
    change (start.index.map IndexRecord.lastKey).Pairwise (· < ·)
    rw [hstart]
    exact List.Pairwise.nil
  | cons r recs =>
    have hkeys : ((r :: recs).map Record.key).Pairwise (· < ·) := List.pairwise_map.mpr hsorted
    rw [Writer.addRecords, List.foldlM_cons, bind_eq_ok] at hw
    obtain ⟨w₁, hfirst, hadd⟩ := hw
    have htype : type = r.type := (@Writer.addRecord_checks deflate (start.reinitBlockWriter type) w₁
      (start.freshBlock type) rfl r hfirst).2
    obtain ⟨bw, -, hholding, -⟩ := @Writer.addRecord_first deflate (start.reinitBlockWriter type) w₁
      (start.freshBlock type) rfl rfl hstart r (congrArg start.freshBlock htype) hfirst
    obtain ⟨bw', hholding'⟩ := hholding.addRecords hadd
    obtain ⟨-, -, -, hsub⟩ := @Writer.Holding.flushBlock deflate _ _ _ _ hholding'
    exact hkeys.sublist hsub

lemma Writer.sectionStep_eq_inl :
    w.sectionStep deflate = .inl w' ↔ w.threshold < w.index.length ∧ w.indexLevel deflate = .ok w' := by
  rw [Writer.sectionStep]
  split
  · next hlt =>
    rw [and_iff_right hlt]
    split
    · next w₁ h => rw [h, Sum.inl.injEq, Except.ok.injEq]
    · next e h => simp [h]
  · next hle => simp [hle]

/-- Every level that is written has fewer records than the one below, and the levels end. -/
def Writer.Shrinks (deflate : List UInt8 → List UInt8) (w : Writer) : Prop :=
  (∀ w₁ w₂, LoopRun (Writer.sectionStep deflate) (w.flushBlock deflate) w₁ → w₁.sectionStep deflate = .inl w₂ →
    w₂.index.length < w₁.index.length) ∧
    ∃ fuel r, w.finishSection deflate fuel = some r

/-- Two neighbours of the level fit into one block, or the level ends with an error as a record does not fit into a
block of its own. -/
def Writer.Packable (w : Writer) : Prop :=
  (∃ a b, [a, b] <:+: w.indexRecords ∧ FitTogether w.opts a b) ∨ ∃ a ∈ w.indexRecords, ¬FitsAlone w.opts a

lemma ne_nil_of_lt (h : w.threshold < w.index.length) : w.index ≠ [] := by
  intro hnil
  rw [hnil] at h
  exact absurd h (Nat.not_lt_zero _)

lemma Writer.packable_iff (hlt : w.threshold < w.index.length)
    (hsorted : (w.index.map IndexRecord.lastKey).Pairwise (· < ·)) :
    w.Packable ↔ ∀ w', w.indexLevel deflate = .ok w' → w'.index.length < w.index.length := by
  have hne := ne_nil_of_lt hlt
  rw [Writer.Packable, ← not_lone_iff]
  constructor
  · intro hpack w' hlevel
    have hof := Writer.levelOf hne hlevel
    by_cases hlone : Lone w.opts w.indexRecords
    · rcases hpack with hnot | hbig
      · exact absurd hlone hnot
      · obtain ⟨a, ha, hbig⟩ := hbig
        exact absurd ((hof.lone hlone).2 a ha) hbig
    · exact hof.shared hlone
  · intro hshrinks
    by_contra hstuck
    push Not at hstuck
    obtain ⟨hlone, halone⟩ := hstuck
    obtain ⟨w', hlevel⟩ := @Writer.indexLevel_lone deflate w hne hsorted hlone halone
    have hlt := hshrinks w' hlevel
    rw [((Writer.levelOf hne hlevel).lone hlone).1] at hlt
    exact lt_irrefl _ hlt

lemma Writer.keys_of_run (hrun : LoopRun (Writer.sectionStep deflate) w w') :
    w'.opts = w.opts ∧ (w'.index.map IndexRecord.lastKey).Sublist (w.index.map IndexRecord.lastKey) := by
  induction hrun with
  | refl => exact ⟨rfl, List.Sublist.refl _⟩
  | tail _ hstep ih =>
    obtain ⟨hlt, hlevel⟩ := Writer.sectionStep_eq_inl.mp hstep
    have hof := Writer.levelOf (ne_nil_of_lt hlt) hlevel
    exact ⟨hof.opts.trans ih.1, hof.keys.trans ih.2⟩

lemma Writer.sorted_of_run (hrun : LoopRun (Writer.sectionStep deflate) w w')
    (hsorted : (w.index.map IndexRecord.lastKey).Pairwise (· < ·)) :
    (w'.index.map IndexRecord.lastKey).Pairwise (· < ·) :=
  hsorted.sublist (Writer.keys_of_run hrun).2

lemma Writer.shrinks_iff
    (hsorted : ((w.flushBlock deflate).index.map IndexRecord.lastKey).Pairwise (· < ·)) :
    w.Shrinks deflate ↔ ∀ w', LoopRun (Writer.sectionStep deflate) (w.flushBlock deflate) w' →
      w'.threshold < w'.index.length → w'.Packable := by
  constructor
  · intro hshrinks w' hrun hlt
    refine (@Writer.packable_iff deflate w' hlt (Writer.sorted_of_run hrun hsorted)).mpr fun w'' hlevel => ?_
    exact hshrinks.1 w' w'' hrun (Writer.sectionStep_eq_inl.mpr ⟨hlt, hlevel⟩)
  · intro hpack
    have hdecr : ∀ w₁ w₂, LoopRun (Writer.sectionStep deflate) (w.flushBlock deflate) w₁ →
        w₁.sectionStep deflate = .inl w₂ → w₂.index.length < w₁.index.length := by
      intro w₁ w₂ hrun hstep
      obtain ⟨hlt, hlevel⟩ := Writer.sectionStep_eq_inl.mp hstep
      exact (Writer.packable_iff hlt (Writer.sorted_of_run hrun hsorted)).mp (hpack w₁ hrun hlt) w₂ hlevel
    refine ⟨hdecr, ?_⟩
    obtain ⟨r, -, hfuel⟩ := @runFor_inv _ _ (Writer.sectionStep deflate) (fun w => w.index.length)
      (fun w₁ => LoopRun (Writer.sectionStep deflate) (w.flushBlock deflate) w₁) (fun _ => True)
      (fun w₁ w₂ hrun hstep => ⟨hrun.tail hstep, hdecr w₁ w₂ hrun hstep⟩) (fun _ _ _ _ => trivial)
      (w.flushBlock deflate) Relation.ReflTransGen.refl
    exact ⟨_, r, hfuel _ (Nat.lt_succ_self _)⟩

def smallBlocks : WriteOptions where
  unpadded := false
  blockSize := 128
  restartInterval := 16
  hashId := .sha1

def longRef (c : UInt8) (h : c ≠ 0) : Record :=
  .ref ⟨⟨List.replicate 60 c, fun hmem => h (List.eq_of_mem_replicate hmem).symm⟩, 0, .deletion⟩

lemma longRef_bytes (c : UInt8) (h : c ≠ 0) : ((longRef c h).bytes .sha1).length ≤ 10 := by
  have hlen := @length_encodeVarint_le (0 : UInt64).toNat (UInt64.toNat_lt _)
  change (encodeVarint (0 : UInt64).toNat ++ []).length ≤ 10
  rwa [List.append_nil]

lemma BlockWriter.length_entry {w : BlockWriter} {rec : Record} (hzero : commonPrefixSize w.prevKey rec.key = 0) :
    rec.key.length + 2 ≤ ((w.entry rec).bytes w.hashId).length := by
  have h₁ := List.length_pos_iff.mpr (encodeVarint_ne_nil (UInt64.ofNat (commonPrefixSize w.prevKey rec.key)).toNat)
  have h₂ := List.length_pos_iff.mpr (encodeVarint_ne_nil
    ((UInt64.ofNat (rec.key.length - commonPrefixSize w.prevKey rec.key) <<< 3) ||| rec.valType.toUInt64).toNat)
  have hdrop : (rec.key.drop (commonPrefixSize w.prevKey rec.key)).length = rec.key.length := by
    rw [hzero, List.drop_zero]
  simp only [Entry.bytes, BlockWriter.entry, keyBytes, List.length_append]
  omega

lemma BlockWriter.room_of_add_add {bw bw₁ bw₂ : BlockWriter} (hempty : bw.entries = 0) {a b : Record}
    (ha : bw.add a = .ok bw₁) (hb : bw₁.add b = .ok bw₂) (hdiff : commonPrefixSize a.key b.key = 0) :
    bw.next + a.key.length + b.key.length + 6 ≤ bw.blockSize := by
  obtain ⟨-, hroom, hbw₁⟩ := BlockWriter.add_eq_ok ha
  obtain ⟨-, hroom', -⟩ := BlockWriter.add_eq_ok hb
  have hnext : bw₁.next = bw.next + ((bw.entry a).bytes bw.hashId).length := by
    rw [hbw₁, BlockWriter.next, BlockWriter.next]
    dsimp only
    rw [List.length_append, Nat.add_assoc (bw.headerOff + 4)]
  have hsize : bw₁.blockSize = bw.blockSize := by
    rw [hbw₁]
  have hfirst : commonPrefixSize bw.prevKey a.key = 0 := by
    rw [BlockWriter.prevKey, hempty, Nat.zero_mod, if_pos rfl]
    rfl
  have hsecond : commonPrefixSize bw₁.prevKey b.key = 0 := by
    rw [BlockWriter.prevKey, (BlockWriter.add_lastKey ha).1]
    split
    · rfl
    · exact hdiff
  have h₁ := BlockWriter.length_entry hfirst
  have h₂ := BlockWriter.length_entry hsecond
  omega

lemma Writer.runFor_none (hlt : w.threshold < w.index.length)
    (hsorted : (w.index.map IndexRecord.lastKey).Pairwise (· < ·))
    (hlone : (w.index.map IndexRecord.lastKey).IsChain fun k k' =>
      ∀ o o', ¬FitTogether w.opts (.index ⟨o, k⟩) (.index ⟨o', k'⟩))
    (halone : ∀ k ∈ w.index.map IndexRecord.lastKey, ∀ o, FitsAlone w.opts (.index ⟨o, k⟩)) (fuel : Nat) :
    runFor (Writer.sectionStep deflate) fuel w = none := by
  induction fuel generalizing w with
  | zero => rfl
  | succ fuel ih =>
    have hlone' : Lone w.opts w.indexRecords := by
      rw [Lone, Writer.indexRecords, List.isChain_map]
      exact ((List.isChain_map _).mp hlone).imp fun a b h => h a.offset b.offset
    have halone' : ∀ a ∈ w.indexRecords, FitsAlone w.opts a := by
      intro a ha
      obtain ⟨r, hr, rfl⟩ := List.mem_map.mp ha
      exact halone _ (List.mem_map_of_mem hr) r.offset
    obtain ⟨w', hlevel⟩ := @Writer.indexLevel_lone deflate w (ne_nil_of_lt hlt) hsorted hlone' halone'
    have hof := Writer.levelOf (ne_nil_of_lt hlt) hlevel
    have hlen := (hof.lone hlone').1
    have hkeys : w'.index.map IndexRecord.lastKey = w.index.map IndexRecord.lastKey := by
      apply hof.keys.eq_of_length
      rw [List.length_map, List.length_map, hlen]
    rw [runFor, Writer.sectionStep_eq_inl.mpr ⟨hlt, hlevel⟩]
    apply ih
    · rw [Writer.threshold, hof.opts, hlen]
      exact hlt
    · rw [hkeys]
      exact hsorted
    · rw [hkeys, hof.opts]
      exact hlone
    · rw [hkeys, hof.opts]
      exact halone

def longRefs : List Record :=
  [longRef 97 (by decide), longRef 98 (by decide), longRef 99 (by decide), longRef 100 (by decide)]

def longKeys : List (List UInt8) :=
  [97, 98, 99, 100].map (List.replicate 60)

lemma longKeys_lone : longKeys.IsChain fun k k' => commonPrefixSize k k' = 0 := by
  decide

lemma longKeys_length {k : List UInt8} (h : k ∈ longKeys) : k.length = 60 := by
  obtain ⟨c, -, rfl⟩ := List.mem_map.mp h
  exact List.length_replicate

lemma fits_of_long {bw : BlockWriter} (hsize : bw.blockSize = 128) (hnext : bw.next ≤ 28) (hempty : bw.restarts = [])
    {a : Record} (ha : a.key.length = 60) (hbytes : (a.bytes bw.hashId).length ≤ 10) : ∃ bw₁, bw.add a = .ok bw₁ := by
  have hkey : a.key ≠ [] := by
    intro hnil
    rw [hnil] at ha
    cases ha
  obtain ⟨bw₁, hadd, -⟩ := @BlockWriter.add_of_room bw a hkey (by
    rw [hempty, List.length_nil]
    omega)
  exact ⟨bw₁, hadd⟩

lemma fitsAlone_long {a : Record} (ha : a.key.length = 60) (hbytes : (a.bytes .sha1).length ≤ 10) :
    FitsAlone smallBlocks a :=
  @fits_of_long (smallBlocks.emptyBlock a.type) rfl (Nat.le_add_right 4 24) rfl a ha hbytes

lemma not_fitTogether_long {a b : Record} (ha : a.key.length = 60) (hb : b.key.length = 60)
    (hdiff : commonPrefixSize a.key b.key = 0) (halone : FitsAlone smallBlocks a) : ¬FitTogether smallBlocks a b := by
  intro hfit
  obtain ⟨bw₁, hadd⟩ := halone
  obtain ⟨bw₂, hadd'⟩ := (fitTogether_iff hadd).mp hfit
  have hroom := BlockWriter.room_of_add_add rfl hadd hadd' hdiff
  rw [ha, hb] at hroom
  change 4 + 60 + 60 + 6 ≤ 128 at hroom
  omega

lemma index_bytes (o : UInt64) (k : List UInt8) : ((Record.index ⟨o, k⟩).bytes .sha1).length ≤ 10 :=
  length_encodeVarint_le o.toNat_lt

end GitCore.Reftable.Structs
