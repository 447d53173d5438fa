import GitCore.Reftable.Block
import GitCore.Reftable.Encode

/-!
# Seeking in a block is a linear scan

What the block writer puts into a block as a list of entries, the same entries as the reader finds them, and the
search for a key among them.
-/

namespace GitCore.Reftable.Structs

structure Entry where
  prev : List UInt8
  record : Record
  restart : Bool

def Entry.bytes (id : HashId) (e : Entry) : List UInt8 :=
  keyBytes e.prev e.record.key e.record.valType ++ e.record.bytes id

def entriesBytes (id : HashId) (entries : List Entry) : List UInt8 :=
  entries.flatMap (Entry.bytes id)

@[simp] lemma entriesBytes_nil (id : HashId) : entriesBytes id [] = [] :=
  rfl

@[simp] lemma entriesBytes_cons (id : HashId) (e : Entry) (entries : List Entry) :
    entriesBytes id (e :: entries) = e.bytes id ++ entriesBytes id entries :=
  rfl

@[simp] lemma entriesBytes_append (id : HashId) (es es' : List Entry) :
    entriesBytes id (es ++ es') = entriesBytes id es ++ entriesBytes id es' :=
  List.flatMap_append

def restartOffsets (id : HashId) (off : Nat) : List Entry → List Nat
  | [] => []
  | e :: entries => (if e.restart then [off] else []) ++ restartOffsets id (off + (e.bytes id).length) entries

lemma restartOffsets_append (id : HashId) (off : Nat) (es es' : List Entry) :
    restartOffsets id off (es ++ es') =
      restartOffsets id off es ++ restartOffsets id (off + (entriesBytes id es).length) es' := by
  induction es generalizing off with
  | nil => rfl
  | cons e es ih =>
    rw [List.cons_append, restartOffsets, restartOffsets, ih, List.append_assoc, entriesBytes_cons, List.length_append,
      Nat.add_assoc]

def restartKeys (entries : List Entry) : List (List UInt8) :=
  (entries.filter Entry.restart).map fun e => e.record.key

lemma restartOffsets_getElem {id : HashId} {off i : Nat} {es : List Entry} {o : Nat}
    (h : (restartOffsets id off es)[i]? = some o) :
    ∃ pre e post, es = pre ++ e :: post ∧ e.restart = true ∧ o = off + (entriesBytes id pre).length ∧
      (restartKeys es)[i]? = some e.record.key := by
  induction es generalizing off i with
  | nil => simp [restartOffsets] at h
  | cons e es ih =>
    have hassoc : ∀ pre, off + (e.bytes id).length + (entriesBytes id pre).length =
        off + (entriesBytes id (e :: pre)).length := by
      intro pre
      rw [entriesBytes_cons, List.length_append, Nat.add_assoc]
    rw [restartOffsets] at h
    cases hrestart : e.restart with
    | false =>
      rw [hrestart] at h
      obtain ⟨pre, e', post, rfl, he', rfl, hkey⟩ := ih h
      refine ⟨e :: pre, e', post, rfl, he', hassoc pre, ?_⟩
      rwa [restartKeys, List.filter_cons_of_neg (by rw [hrestart]; decide)]
    | true =>
      rw [hrestart] at h
      have hkeys : restartKeys (e :: es) = e.record.key :: restartKeys es := by
        rw [restartKeys, List.filter_cons_of_pos hrestart]
        rfl
      rw [hkeys]
      cases i with
      | zero => exact ⟨[], e, es, rfl, hrestart, (Option.some.inj h).symm, rfl⟩
      | succ i =>
        obtain ⟨pre, e', post, rfl, he', rfl, hkey⟩ := ih h
        exact ⟨e :: pre, e', post, rfl, he', hassoc pre, hkey⟩

lemma length_restartOffsets (id : HashId) (off : Nat) (es : List Entry) :
    (restartOffsets id off es).length = (restartKeys es).length := by
  induction es generalizing off with
  | nil => rfl
  | cons e es ih =>
    rw [restartOffsets, List.length_append, ih, restartKeys, restartKeys, List.filter_cons]
    cases e.restart with
    | false => exact Nat.zero_add _
    | true => exact Nat.add_comm _ _

def lastKeyOf (last : List UInt8) (entries : List Entry) : List UInt8 :=
  entries.foldl (fun _ e => e.record.key) last

/-- An entry is written behind no key or behind the key before it, and a restart point shares nothing with it. -/
structure Entry.Follows (e : Entry) (last : List UInt8) : Prop where
  prev : e.prev = [] ∨ e.prev = last
  restart : e.restart = true → commonPrefixSize e.prev e.record.key = 0
  nonempty : e.record.key ≠ []

def Chained (last : List UInt8) : List Entry → Prop
  | [] => True
  | e :: entries => e.Follows last ∧ Chained e.record.key entries

lemma chained_append {last : List UInt8} {es es' : List Entry} :
    Chained last (es ++ es') ↔ Chained last es ∧ Chained (lastKeyOf last es) es' := by
  induction es generalizing last with
  | nil => simp [Chained, lastKeyOf]
  | cons e es ih =>
    rw [List.cons_append, Chained, Chained, ih, and_assoc]
    rfl

structure BlockWriter.Holds (w : BlockWriter) (entries : List Entry) : Prop where
  body : w.body = entriesBytes w.hashId entries
  restarts : w.restarts = restartOffsets w.hashId (w.headerOff + 4) entries
  chained : Chained [] entries
  lastKey : w.lastKey = lastKeyOf [] entries
  first : ∀ e ∈ entries.head?, e.restart = true
  count : w.entries = entries.length
  few : w.restarts.length ≤ MAX_RESTARTS
  fits : entries ≠ [] → w.next + 2 + 3 * w.restarts.length ≤ w.blockSize

lemma BlockWriter.init_holds (type : BlockType) (id : HashId) (blockSize headerOff interval : Nat) :
    (BlockWriter.init type id blockSize headerOff interval).Holds [] where
  body := rfl
  restarts := rfl
  chained := trivial
  lastKey := rfl
  first := by
    intro e he
    cases he
  count := rfl
  few := Nat.zero_le _
  fits := fun h => absurd rfl h

structure BlockWriter.SameBlock (w w' : BlockWriter) : Prop where
  type : w'.type = w.type
  hashId : w'.hashId = w.hashId
  blockSize : w'.blockSize = w.blockSize
  headerOff : w'.headerOff = w.headerOff

def BlockWriter.prevKey (w : BlockWriter) : List UInt8 :=
  if w.entries % w.restartInterval = 0 then [] else w.lastKey

def BlockWriter.entry (w : BlockWriter) (rec : Record) : Entry where
  prev := w.prevKey
  record := rec
  restart := w.restarts.length < MAX_RESTARTS ∧ commonPrefixSize w.prevKey rec.key = 0

def BlockWriter.nextRestarts (w : BlockWriter) (rec : Record) : List Nat :=
  if (w.entry rec).restart then w.restarts ++ [w.next] else w.restarts

lemma BlockWriter.add_eq (w : BlockWriter) (rec : Record) :
    w.add rec =
      if rec.key = [] then .error .api
      else if w.blockSize - w.next < 2 + 3 * (w.nextRestarts rec).length + ((w.entry rec).bytes w.hashId).length then
        .error .entryTooBig
      else .ok { w with
        restarts := w.nextRestarts rec
        body := w.body ++ (w.entry rec).bytes w.hashId
        lastKey := rec.key
        entries := w.entries + 1 } := by
  rw [BlockWriter.add]
  by_cases hkey : rec.key = []
  · rw [if_pos hkey, if_pos hkey]
  rw [if_neg hkey, if_neg hkey]
  change (reftableEncodeKey w.prevKey rec.key rec.valType (w.blockSize - w.next) >>= fun key =>
    rec.encode w.hashId (w.blockSize - w.next - key.2.length) >>= fun val =>
      w.registerRestart (key.2 ++ val) key.1 rec.key) = _
  have hbytes : ((w.entry rec).bytes w.hashId).length =
      (keyBytes w.prevKey rec.key rec.valType).length + (rec.bytes w.hashId).length := List.length_append
  rw [reftableEncodeKey_eq]
  by_cases hroom : w.blockSize - w.next < (keyBytes w.prevKey rec.key rec.valType).length
  · rw [if_pos hroom, if_pos (by omega)]
    rfl
  rw [if_neg hroom]
  change (rec.encode w.hashId (w.blockSize - w.next - (keyBytes w.prevKey rec.key rec.valType).length) >>= fun val =>
    w.registerRestart (keyBytes w.prevKey rec.key rec.valType ++ val) (commonPrefixSize w.prevKey rec.key = 0)
      rec.key) = _
  rw [rec.encode_writes w.hashId]
  by_cases hval : w.blockSize - w.next - (keyBytes w.prevKey rec.key rec.valType).length < (rec.bytes w.hashId).length
  · rw [if_pos hval, if_pos (by omega)]
    rfl
  rw [if_neg hval]
  change w.registerRestart ((w.entry rec).bytes w.hashId) (commonPrefixSize w.prevKey rec.key = 0) rec.key = _
  rw [BlockWriter.registerRestart]
  have hrestarts : (if w.restarts.length < MAX_RESTARTS ∧ decide (commonPrefixSize w.prevKey rec.key = 0) = true
      then w.restarts ++ [w.next] else w.restarts) = w.nextRestarts rec := by
    simp only [BlockWriter.nextRestarts, BlockWriter.entry, decide_eq_true_eq]
  rw [hrestarts]

lemma BlockWriter.add_eq_ok {w w' : BlockWriter} {rec : Record} (h : w.add rec = .ok w') :
    rec.key ≠ [] ∧
      2 + 3 * (w.nextRestarts rec).length + ((w.entry rec).bytes w.hashId).length ≤ w.blockSize - w.next ∧
      w' = { w with
        restarts := w.nextRestarts rec
        body := w.body ++ (w.entry rec).bytes w.hashId
        lastKey := rec.key
        entries := w.entries + 1 } := by
  rw [BlockWriter.add_eq] at h
  split_ifs at h with hkey hroom
  exact ⟨hkey, not_lt.mp hroom, (Except.ok.inj h).symm⟩

lemma BlockWriter.Holds.add {w w' : BlockWriter} {entries : List Entry} (h : w.Holds entries) {rec : Record}
    (hadd : w.add rec = .ok w') : w'.Holds (entries ++ [w.entry rec]) ∧ w.SameBlock w' := by
  obtain ⟨hkey, hroom, rfl⟩ := BlockWriter.add_eq_ok hadd
  have hprev : w.prevKey = [] ∨ w.prevKey = w.lastKey := by
    rw [BlockWriter.prevKey]
    split
    · exact .inl rfl
    · exact .inr rfl
  have hfollows : (w.entry rec).Follows (lastKeyOf [] entries) := by
    refine ⟨?_, fun hrestart => ?_, hkey⟩
    · rw [← h.lastKey]
      exact hprev
    · exact (of_decide_eq_true hrestart).2
  refine ⟨⟨?_, ?_, ?_, ?_, ?_, ?_, ?_, ?_⟩, ⟨rfl, rfl, rfl, rfl⟩⟩
  · rw [h.body, entriesBytes_append]
    simp
  · rw [restartOffsets_append, ← h.restarts, ← h.body]
    simp only [restartOffsets, List.append_nil, BlockWriter.nextRestarts]
    split
    · rfl
    · rw [List.append_nil]
  · exact chained_append.mpr ⟨h.chained, hfollows, trivial⟩
  · rw [lastKeyOf, List.foldl_append]
    rfl
  · intro e he
    cases entries with
    | nil =>
      obtain rfl := Option.some.inj he
      have hcount : w.entries = 0 := h.count
      have hprev : w.prevKey = [] := by
        rw [BlockWriter.prevKey, hcount, Nat.zero_mod, if_pos rfl]
      have hlen : w.restarts = [] := h.restarts
      refine decide_eq_true ⟨?_, ?_⟩
      · rw [hlen]
        decide
      · rw [hprev]
        rfl
    | cons e' entries => exact h.first e he
  · rw [h.count, List.length_append, List.length_singleton]
  · change (w.nextRestarts rec).length ≤ MAX_RESTARTS
    rw [BlockWriter.nextRestarts]
    split
    · next hrestart =>
      rw [List.length_append, List.length_singleton]
      exact (of_decide_eq_true hrestart).1
    · exact h.few
  · intro _
    change w.headerOff + 4 + (w.body ++ (w.entry rec).bytes w.hashId).length + 2 + 3 * (w.nextRestarts rec).length ≤
      w.blockSize
    rw [List.length_append]
    rw [BlockWriter.next] at hroom
    omega

def BlockWriter.addAll (w : BlockWriter) (recs : List Record) : Except ReftableError BlockWriter :=
  recs.foldlM BlockWriter.add w

lemma BlockWriter.Holds.addAll {w w' : BlockWriter} {entries : List Entry} (h : w.Holds entries) {recs : List Record}
    (hadd : w.addAll recs = .ok w') :
    ∃ entries', w'.Holds (entries ++ entries') ∧ entries'.map Entry.record = recs ∧ w.SameBlock w' := by
  induction recs generalizing w entries with
  | nil =>
    obtain rfl := Except.ok.inj hadd
    exact ⟨[], by rwa [List.append_nil], rfl, rfl, rfl, rfl, rfl⟩
  | cons rec recs ih =>
    rw [BlockWriter.addAll, List.foldlM_cons, bind_eq_ok] at hadd
    obtain ⟨w₁, hfirst, hadd⟩ := hadd
    obtain ⟨h₁, hsame⟩ := h.add hfirst
    obtain ⟨entries', h', hmap, hsame'⟩ := ih h₁ hadd
    rw [List.append_assoc] at h'
    refine ⟨w.entry rec :: entries', h', ?_, ?_, ?_, ?_, ?_⟩
    · rw [List.map_cons, hmap]
      rfl
    · exact hsame'.type.trans hsame.type
    · exact hsame'.hashId.trans hsame.hashId
    · exact hsame'.blockSize.trans hsame.blockSize
    · exact hsame'.headerOff.trans hsame.headerOff

structure Block.Reads (b : Block) (entries : List Entry) : Prop where
  content : ∃ header : List UInt8, header.length = b.headerOff + 4 ∧
    b.data.take b.restartOff = header ++ entriesBytes b.hashId entries
  restartOff : b.restartOff = b.headerOff + 4 + (entriesBytes b.hashId entries).length
  count : b.restartCount = (restartOffsets b.hashId (b.headerOff + 4) entries).length
  restartOffset : ∀ i o, (restartOffsets b.hashId (b.headerOff + 4) entries)[i]? = some o → b.restartOffset i = o
  chained : Chained [] entries
  first : ∀ e ∈ entries.head?, e.restart = true
  short : (entriesBytes b.hashId entries).length < 2 ^ 24

lemma beValue_beBytes_of_lt {len v : Nat} (h : v < 256 ^ len) : beValue (beBytes len v) = v := by
  rw [beValue_beBytes, Nat.mod_eq_of_lt h]

lemma length_flatMap_beBytes (len : Nat) (vs : List Nat) : (vs.flatMap (beBytes len)).length = len * vs.length := by
  induction vs with
  | nil => rfl
  | cons v vs ih =>
    rw [List.flatMap_cons, List.length_append, ih, length_beBytes, List.length_cons, Nat.mul_succ, Nat.add_comm]

lemma take_flatMap_beBytes {len i v : Nat} {vs : List Nat} (h : vs[i]? = some v) (rest : List UInt8) :
    ((vs.flatMap (beBytes len) ++ rest).drop (len * i)).take len = beBytes len v := by
  induction vs generalizing i with
  | nil => cases h
  | cons w vs ih =>
    rw [List.flatMap_cons, List.append_assoc]
    cases i with
    | zero =>
      obtain rfl := Option.some.inj h
      rw [Nat.mul_zero, List.drop_zero, List.take_append_of_le_length (length_beBytes len w).ge,
        List.take_of_length_le (length_beBytes len w).le]
    | succ i =>
      have hskip : len * (i + 1) = (beBytes len w).length + len * i := by
        rw [length_beBytes, Nat.mul_succ, Nat.add_comm]
      rw [hskip, List.drop_length_add_append]
      exact ih h

lemma restartOffsets_lt {id : HashId} {off o : Nat} {es : List Entry} (h : o ∈ restartOffsets id off es) :
    o ≤ off + (entriesBytes id es).length := by
  obtain ⟨i, hi⟩ := List.mem_iff_getElem?.mp h
  obtain ⟨pre, e, post, rfl, -, rfl, -⟩ := restartOffsets_getElem hi
  rw [entriesBytes_append, List.length_append]
  omega

variable {w : BlockWriter} {entries : List Entry}

lemma BlockWriter.Holds.reads (h : w.Holds entries) (hne : entries ≠ [])
    (hsize : w.blockSize < 2 ^ 24) {header : List UInt8} (hheader : header.length = w.headerOff + 4) {b : Block}
    (hid : b.hashId = w.hashId) (hoff : b.headerOff = w.headerOff)
    (hdata : b.data = header ++ (w.body ++ w.restartTable))
    (hrestartOff : b.restartOff = w.headerOff + 4 + w.body.length) (hcount : b.restartCount = w.restarts.length) :
    b.Reads entries := by
  have hfits := h.fits hne
  rw [BlockWriter.next] at hfits
  have hlen : (header ++ w.body).length = b.restartOff := by
    rw [List.length_append, hheader, hrestartOff]
  rw [← List.append_assoc] at hdata
  refine ⟨⟨header, ?_, ?_⟩, ?_, ?_, ?_, h.chained, h.first, ?_⟩
  · rw [hheader, hoff]
  · rw [hdata, ← hlen, List.take_left, h.body, hid]
  · rw [hrestartOff, hoff, h.body, hid]
  · rw [hcount, h.restarts, hoff, hid]
  · intro i o hi
    rw [hid, hoff, ← h.restarts] at hi
    have ho : o ≤ w.headerOff + 4 + (entriesBytes w.hashId entries).length := by
      apply restartOffsets_lt
      rw [← h.restarts]
      exact List.mem_of_getElem? hi
    rw [← h.body] at ho
    rw [Block.restartOffset, hdata, ← hlen, List.drop_length_add_append, BlockWriter.restartTable, take_flatMap_beBytes hi,
      beValue_beBytes_of_lt (by omega)]
  · rw [hid, ← h.body]
    omega

lemma BlockType.ofByte_byte (type : BlockType) : BlockType.ofByte type.byte = some type := by
  cases type <;> decide

def BlockWriter.blockHeader (w : BlockWriter) (header : List UInt8) : List UInt8 :=
  header ++ w.type.byte :: beBytes 3 (w.headerOff + 4 + (w.body ++ w.restartTable).length)

lemma BlockWriter.length_blockHeader {header : List UInt8} (hheader : header.length = w.headerOff) :
    (w.blockHeader header).length = w.headerOff + 4 := by
  rw [BlockWriter.blockHeader, List.length_append, List.length_cons, length_beBytes, hheader]

lemma BlockWriter.finish_eq (w : BlockWriter) (deflate : List UInt8 → List UInt8) (header rest : List UInt8) :
    header ++ (w.finish deflate ++ rest) = w.blockHeader header ++
      ((if w.type = .log then deflate (w.body ++ w.restartTable) else w.body ++ w.restartTable) ++ rest) := by
  rw [BlockWriter.finish, BlockWriter.blockHeader, List.append_assoc, List.append_assoc]

lemma BlockWriter.blockData_finish {deflate : List UInt8 → List UInt8}
    {inflate : List UInt8 → Nat → Option (List UInt8)}
    (hzlib : ∀ content rest, inflate (deflate content ++ rest) content.length = some content) {header : List UInt8}
    (hheader : header.length = w.headerOff) (rest : List UInt8) :
    blockData inflate w.type (header ++ (w.finish deflate ++ rest)) (w.headerOff + 4)
        (w.headerOff + 4 + (w.body ++ w.restartTable).length) =
      .ok (w.blockHeader header ++ (w.body ++ w.restartTable)) := by
  have hlen := BlockWriter.length_blockHeader hheader
  rw [BlockWriter.finish_eq, blockData, ← hlen]
  generalize w.body ++ w.restartTable = content
  split
  · next hlog =>
    rw [List.drop_left, List.take_left, Nat.add_sub_cancel_left, hzlib]
    exact if_pos (Nat.add_comm _ _)
  · rw [← List.length_append, ← List.append_assoc, List.take_left]

lemma BlockWriter.finish_size {header : List UInt8} (hheader : header.length = w.headerOff)
    (hsize : w.headerOff + 4 + (w.body ++ w.restartTable).length < 2 ^ 24) (tail : List UInt8) :
    beValue (((w.blockHeader header ++ tail).drop (w.headerOff + 1)).take 3) =
      w.headerOff + 4 + (w.body ++ w.restartTable).length := by
  have hsplit : w.blockHeader header ++ tail = (header ++ [w.type.byte]) ++
      (beBytes 3 (w.headerOff + 4 + (w.body ++ w.restartTable).length) ++ tail) := by
    rw [BlockWriter.blockHeader]
    simp only [List.append_assoc, List.cons_append, List.nil_append]
  have hlen : (header ++ [w.type.byte]).length = w.headerOff + 1 := by
    rw [List.length_append, hheader, List.length_singleton]
  rw [hsplit, ← hlen, List.drop_left, List.take_append_of_le_length (length_beBytes 3 _).ge,
    List.take_of_length_le (length_beBytes 3 _).le, beValue_beBytes_of_lt hsize]

lemma BlockWriter.finish_restarts {front : List UInt8} (hfront : front.length = w.headerOff + 4)
    (hfew : w.restarts.length ≤ MAX_RESTARTS) :
    beValue (((front ++ (w.body ++ w.restartTable)).drop
      (w.headerOff + 4 + (w.body ++ w.restartTable).length - 2)).take 2) = w.restarts.length := by
  have hsplit : front ++ (w.body ++ w.restartTable) =
      (front ++ (w.body ++ w.restarts.flatMap (beBytes 3))) ++ beBytes 2 w.restarts.length := by
    rw [BlockWriter.restartTable]
    simp only [List.append_assoc]
  have hlen : w.headerOff + 4 + (w.body ++ w.restartTable).length - 2 =
      (front ++ (w.body ++ w.restarts.flatMap (beBytes 3))).length := by
    simp only [BlockWriter.restartTable, List.length_append, length_beBytes, hfront]
    omega
  rw [MAX_RESTARTS] at hfew
  rw [hlen, hsplit, List.drop_left, List.take_of_length_le (length_beBytes _ _).le,
    beValue_beBytes_of_lt (by omega)]

lemma BlockWriter.Holds.blockInit (h : w.Holds entries) (hne : entries ≠ [])
    (hsize : w.blockSize < 2 ^ 24) {deflate : List UInt8 → List UInt8}
    {inflate : List UInt8 → Nat → Option (List UInt8)}
    (hzlib : ∀ content rest, inflate (deflate content ++ rest) content.length = some content)
    {header : List UInt8} (hheader : header.length = w.headerOff) (rest : List UInt8) :
    ∃ b, blockInit inflate (header ++ (w.finish deflate ++ rest)) w.headerOff w.hashId = .ok b ∧ b.Reads entries ∧
      b.type = w.type ∧ b.hashId = w.hashId := by
  have hfits := h.fits hne
  rw [BlockWriter.next] at hfits
  have htable : w.restartTable.length = 3 * w.restarts.length + 2 := by
    rw [BlockWriter.restartTable, List.length_append, length_flatMap_beBytes, length_beBytes]
  have hcontent : w.headerOff + 4 + (w.body ++ w.restartTable).length - 2 - 3 * w.restarts.length =
      w.headerOff + 4 + w.body.length := by
    rw [List.length_append, htable]
    omega
  have hbyte : (header ++ (w.finish deflate ++ rest)).getD w.headerOff 0 = w.type.byte := by
    rw [BlockWriter.finish, List.getD_append_right _ _ _ _ hheader.le, hheader, Nat.sub_self]
    rfl
  have hlength : beValue (((header ++ (w.finish deflate ++ rest)).drop (w.headerOff + 1)).take 3) =
      w.headerOff + 4 + (w.body ++ w.restartTable).length := by
    rw [BlockWriter.finish_eq]
    refine BlockWriter.finish_size hheader ?_ _
    rw [List.length_append, htable]
    omega
  have hrestarts := BlockWriter.finish_restarts (BlockWriter.length_blockHeader hheader) h.few
  refine ⟨⟨w.type, w.hashId, w.blockHeader header ++ (w.body ++ w.restartTable), w.headerOff,
    w.headerOff + 4 + w.body.length, w.restarts.length⟩, ?_, ?_, rfl, rfl⟩
  · rw [GitCore.Reftable.Structs.blockInit, hbyte, BlockType.ofByte_byte]
    dsimp only
    rw [hlength, BlockWriter.blockData_finish hzlib hheader]
    simp only [bind, Except.bind, pure, Except.pure]
    rw [hrestarts, hcontent]
  · exact h.reads hne hsize (BlockWriter.length_blockHeader hheader) rfl rfl rfl rfl rfl

/-- The iterator is behind the entries `pre`, and its key shares with the next key what that is written without. -/
structure BlockIter.At (it : BlockIter) (b : Block) (pre post : List Entry) : Prop where
  nextOff : it.nextOff = b.headerOff + 4 + (entriesBytes b.hashId pre).length
  shared : ∀ e ∈ post.head?, it.lastKey.take (commonPrefixSize e.prev e.record.key) =
    e.record.key.take (commonPrefixSize e.prev e.record.key)

variable {b : Block}

lemma Block.Reads.view {pre post : List Entry} (h : b.Reads (pre ++ post)) :
    b.view (b.headerOff + 4 + (entriesBytes b.hashId pre).length) = entriesBytes b.hashId post := by
  obtain ⟨header, hheader, hcontent⟩ := h.content
  have hlen : (header ++ entriesBytes b.hashId pre).length =
      b.headerOff + 4 + (entriesBytes b.hashId pre).length := by
    rw [List.length_append, hheader]
  rw [Block.view, hcontent, entriesBytes_append, ← List.append_assoc, ← hlen, List.drop_left]

lemma chained_key_length (id : HashId) {last : List UInt8} {pre : List Entry} {e : Entry} {post : List Entry}
    (h : Chained last (pre ++ e :: post)) :
    e.record.key.length ≤ last.length + (entriesBytes id (pre ++ [e])).length := by
  have hentry : ∀ (e : Entry) (last : List UInt8), e.Follows last →
      e.record.key.length ≤ last.length + (e.bytes id).length := by
    intro e last hfollows
    have hfront := commonPrefixSize_le_left e.prev e.record.key
    have hprev : e.prev.length ≤ last.length := by
      rcases hfollows.prev with hnil | hlast
      · rw [hnil]
        exact Nat.zero_le _
      · rw [hlast]
    simp only [Entry.bytes, keyBytes, List.length_append, List.length_drop]
    omega
  induction pre generalizing last with
  | nil =>
    rw [List.nil_append, entriesBytes_cons, entriesBytes_nil, List.append_nil]
    exact hentry e last h.1
  | cons e' pre ih =>
    have hrest := ih h.2
    have hfirst := hentry e' last h.1
    rw [List.cons_append, entriesBytes_cons, List.length_append]
    omega

lemma Block.Reads.key_short {pre post : List Entry} {e : Entry} (h : b.Reads (pre ++ e :: post)) :
    e.record.key.length < 2 ^ 24 ∧ (e.record.bytes b.hashId).length < 2 ^ 24 := by
  have hkey := chained_key_length b.hashId h.chained
  have hshort := h.short
  simp only [entriesBytes_append, entriesBytes_cons, entriesBytes_nil, Entry.bytes, List.length_append, List.length_nil]
    at hkey hshort
  omega

lemma Block.Reads.follows {pre post : List Entry} {e : Entry} (h : b.Reads (pre ++ e :: post)) :
    e.Follows (lastKeyOf [] pre) ∧ Chained e.record.key post :=
  (chained_append.mp h.chained).2

variable {it : BlockIter}

lemma BlockIter.At.decodeKey {pre post : List Entry} {e : Entry}
    (hat : it.At b pre (e :: post)) (h : b.Reads (pre ++ e :: post)) :
    ¬b.restartOff ≤ it.nextOff ∧ (b.view it.nextOff).length = (entriesBytes b.hashId (e :: post)).length ∧
      reftableDecodeKey it.lastKey (b.view it.nextOff) =
        .ok ((e.record.key, e.record.valType), e.record.bytes b.hashId ++ entriesBytes b.hashId post) := by
  have hkey := h.key_short.1
  have hfront := commonPrefixSize_le_right e.prev e.record.key
  have hview : b.view it.nextOff =
      keyBytes e.prev e.record.key e.record.valType ++ (e.record.bytes b.hashId ++ entriesBytes b.hashId post) := by
    rw [hat.nextOff, h.view, entriesBytes_cons, Entry.bytes, List.append_assoc]
  have hpos : 0 < (keyBytes e.prev e.record.key e.record.valType).length := by
    rw [keyBytes, List.length_append]
    have hvarint := List.length_pos_iff.mpr (encodeVarint_ne_nil (UInt64.ofNat (commonPrefixSize e.prev e.record.key)).toNat)
    omega
  refine ⟨?_, ?_, ?_⟩
  · rw [h.restartOff, hat.nextOff, entriesBytes_append, entriesBytes_cons, Entry.bytes]
    simp only [List.length_append]
    omega
  · rw [hat.nextOff, h.view]
  · rw [hview]
    exact reftableDecodeKey_keyBytes e.record.valType_lt (by omega) (by omega) (hat.shared e rfl) _

lemma blockIterNext_entry {pre post : List Entry} {e : Entry}
    (h : b.Reads (pre ++ e :: post)) (hat : it.At b pre (e :: post)) {old : Record}
    (htype : old.type = e.record.type) (hnamed : e.record.Named) :
    ∃ it' rec', blockIterNext b it old = .ok (some (it', rec')) ∧ e.record.equal rec' b.hashId ∧
      it'.lastKey = e.record.key ∧ it'.At b (pre ++ [e]) post := by
  have hbytes := h.key_short.2
  obtain ⟨hfollows, hchained⟩ := h.follows
  obtain ⟨hinside, hlen, hdecodeKey⟩ := hat.decodeKey h
  obtain ⟨rec', hdecode, hequal⟩ :=
    e.record.decode_bytes old b.hashId (entriesBytes b.hashId post) htype hnamed (by omega)
  refine ⟨⟨it.nextOff + ((b.view it.nextOff).length - (entriesBytes b.hashId post).length), e.record.key⟩, rec', ?_,
    hequal, rfl, ?_, ?_⟩
  · rw [blockIterNext, if_neg hinside]
    simp only [hdecodeKey, if_neg hfollows.nonempty, hdecode]
  · dsimp only
    rw [hlen, hat.nextOff]
    simp only [entriesBytes_append, entriesBytes_cons, entriesBytes_nil, List.length_append, List.length_nil]
    omega
  · intro e' he'
    cases post with
    | nil => cases he'
    | cons e'' post =>
      obtain rfl := Option.some.inj he'
      rcases hchained.1.prev with hnil | hlast
      · rw [hnil]
        rfl
      · rw [hlast]
        exact take_commonPrefixSize _ _

lemma blockIterNext_error {pre post : List Entry} {e : Entry}
    (h : b.Reads (pre ++ e :: post)) (hat : it.At b pre (e :: post)) {old : Record} {err : ReftableError}
    (hdecode : old.decode e.record.key e.record.valType b.hashId
      (e.record.bytes b.hashId ++ entriesBytes b.hashId post) = .error err) :
    blockIterNext b it old = .error .failure := by
  obtain ⟨hinside, -, hdecodeKey⟩ := hat.decodeKey h
  rw [blockIterNext, if_neg hinside]
  simp only [hdecodeKey, if_neg h.follows.1.nonempty, hdecode]

lemma blockIterNext_end {pre : List Entry} (h : b.Reads pre) (hat : it.At b pre [])
    (old : Record) : blockIterNext b it old = .ok none := by
  rw [blockIterNext, if_pos]
  rw [h.restartOff, hat.nextOff]

/-- The iterator yields these records one by one, into whatever record of the block's type it is given, and then
the end. -/
def Yields (b : Block) : List Record → BlockIter → Prop
  | [], it => ∀ old, blockIterNext b it old = .ok none
  | rec :: recs, it => ∀ old, old.type = b.type →
    ∃ it' rec', blockIterNext b it old = .ok (some (it', rec')) ∧ rec.equal rec' b.hashId ∧ Yields b recs it'

lemma BlockIter.At.yields {pre post : List Entry} (hat : it.At b pre post)
    (h : b.Reads (pre ++ post)) (htype : ∀ e ∈ post, e.record.type = b.type) (hnamed : ∀ e ∈ post, e.record.Named) :
    Yields b (post.map Entry.record) it := by
  induction post generalizing it pre with
  | nil =>
    rw [List.append_nil] at h
    exact blockIterNext_end h hat
  | cons e post ih =>
    intro old hold
    have he : e.record.type = b.type := htype e List.mem_cons_self
    obtain ⟨it', rec', hnext, hequal, -, hat'⟩ :=
      blockIterNext_entry h hat (hold.trans he.symm) (hnamed e List.mem_cons_self)
    rw [List.append_cons] at h
    exact ⟨it', rec', hnext, hequal, ih hat' h (fun e he => htype e (List.mem_cons_of_mem _ he))
      fun e he => hnamed e (List.mem_cons_of_mem _ he)⟩

lemma seekLoop_at {want : List UInt8} {it : BlockIter} {pre post : List Entry} (h : b.Reads (pre ++ post))
    (hat : it.At b pre post) (htype : ∀ e ∈ post, e.record.type = b.type) (hnamed : ∀ e ∈ post, e.record.Named)
    {old : Record} (hold : old.type = b.type) :
    ∃ it' pre' post', pre ++ post = pre' ++ post' ∧
      loop (seekStep b want) (fun s => b.restartOff - s.1.nextOff) (seekStep_moves b want) (it, old) = .ok it' ∧
        it'.At b pre' post' ∧ post' = post.dropWhile fun e => e.record.key < want := by
  induction post generalizing it pre old with
  | nil =>
    rw [List.append_nil] at h
    refine ⟨it, pre, [], rfl, loop_of_inr ?_, hat, rfl⟩
    rw [seekStep, blockIterNext_end h hat]
  | cons e post ih =>
    have he : e.record.type = b.type := htype e List.mem_cons_self
    obtain ⟨it', rec', hnext, hequal, hlast, hat'⟩ :=
      blockIterNext_entry h hat (hold.trans he.symm) (hnamed e List.mem_cons_self)
    obtain ⟨htype', hkey⟩ := Record.equal_key hequal
    by_cases hbelow : e.record.key < want
    · have hcmp : ¬0 ≤ reftableBufCmp rec'.key want := by
        rw [← hkey]
        exact not_le.mpr (reftableBufCmp_neg.mpr hbelow)
      rw [List.append_cons] at h
      obtain ⟨it'', pre', post', hsplit, hloop, hat'', hdrop⟩ := @ih ⟨it'.nextOff, rec'.key⟩ _ h
        ⟨hat'.nextOff, by rw [← hkey, ← hlast]; exact hat'.shared⟩ (fun e he => htype e (List.mem_cons_of_mem _ he))
        (fun e he => hnamed e (List.mem_cons_of_mem _ he)) _ (htype'.symm.trans he)
      refine ⟨it'', pre', post', ?_, ?_, hat'', ?_⟩
      · rw [List.append_cons, hsplit]
      · rw [@loop_of_inl _ _ _ _ _ _ (⟨it'.nextOff, rec'.key⟩, rec')]
        · exact hloop
        · rw [seekStep, hnext]
          exact if_neg hcmp
      · rw [hdrop, List.dropWhile_cons, if_pos (decide_eq_true hbelow)]
    · have hcmp : 0 ≤ reftableBufCmp rec'.key want := by
        rw [← hkey]
        exact not_lt.mp fun hneg => hbelow (reftableBufCmp_neg.mp hneg)
      refine ⟨⟨it.nextOff, rec'.key⟩, pre, e :: post, rfl, loop_of_inr ?_, ⟨hat.nextOff, ?_⟩, ?_⟩
      · rw [seekStep, hnext]
        exact if_pos hcmp
      · intro e' he'
        obtain rfl := Option.some.inj he'
        rw [← hkey]
      · rw [List.dropWhile_cons_of_neg (by simpa using hbelow)]

lemma restartNeedleLess_restart (h : b.Reads entries) {i : Nat} {key : List UInt8}
    (hkey : (restartKeys entries)[i]? = some key) (want : List UInt8) :
    restartNeedleLess b want i = some (decide (want < key)) := by
  obtain ⟨hi, -⟩ := List.getElem?_eq_some_iff.mp hkey
  rw [← length_restartOffsets b.hashId (b.headerOff + 4)] at hi
  have hoff := List.getElem?_eq_getElem hi
  obtain ⟨pre, e, post, rfl, hrestart, heq, hkey'⟩ := restartOffsets_getElem hoff
  obtain rfl := Option.some.inj (hkey.symm.trans hkey')
  have hfront := (h.follows.1.restart hrestart)
  have hshort := h.key_short.1
  have hlens := @reftableDecodeKeylen_keyBytes e.prev e.record.key _ e.record.valType_lt (by omega)
    (by omega) (e.record.bytes b.hashId ++ entriesBytes b.hashId post)
  rw [hfront, List.drop_zero, Nat.sub_zero] at hlens
  rw [restartNeedleLess, h.restartOffset i _ hoff, heq, h.view, entriesBytes_cons, Entry.bytes, List.append_assoc, hlens]
  dsimp only
  rw [if_neg, List.take_left]
  · simp only [reftableBufCmp_neg]
  · rw [List.length_append]
    omega

lemma pairwise_split {recs : List Record} (hsorted : recs.Pairwise fun a b => a.key < b.key) {pre post : List Entry}
    {e : Entry} (hmap : (pre ++ e :: post).map Entry.record = recs) {want : List UInt8} (hle : e.record.key ≤ want) :
    ∀ e' ∈ pre, e'.record.key < want := by
  intro e' he'
  rw [← hmap, List.map_append, List.map_cons, List.pairwise_append] at hsorted
  exact (hsorted.2.2 _ (List.mem_map_of_mem he') _ List.mem_cons_self).trans_le hle

lemma filter_eq_dropWhile {recs : List Record} (hsorted : recs.Pairwise fun a b => a.key < b.key) (want : List UInt8) :
    recs.filter (fun rec => want ≤ rec.key) = recs.dropWhile fun rec => rec.key < want := by
  induction recs with
  | nil => rfl
  | cons rec recs ih =>
    obtain ⟨hfirst, hrest⟩ := List.pairwise_cons.mp hsorted
    by_cases hbelow : rec.key < want
    · rw [List.filter_cons_of_neg (by simpa using hbelow), List.dropWhile_cons, if_pos (decide_eq_true hbelow), ih hrest]
    · rw [List.dropWhile_cons, if_neg (by simpa using hbelow), List.filter_eq_self]
      intro rec' hrec'
      refine decide_eq_true ?_
      rcases List.mem_cons.mp hrec' with rfl | hmem
      · exact not_lt.mp hbelow
      · exact (not_lt.mp hbelow).trans (hfirst rec' hmem).le

lemma seek_start (h : b.Reads entries) (hne : entries ≠ [])
    (hsorted : (entries.map Entry.record).Pairwise fun a b => a.key < b.key) (want : List UInt8) :
    ∃ i, firstPass (restartNeedleLess b want) b.restartCount = some i ∧ ∃ pre post, entries = pre ++ post ∧
      (∀ e ∈ pre, e.record.key < want) ∧ (∀ e ∈ post.head?, commonPrefixSize e.prev e.record.key = 0) ∧
        (if 0 < i then b.restartOffset (i - 1) else b.headerOff + 4) =
          b.headerOff + 4 + (entriesBytes b.hashId pre).length := by
  have hcount : b.restartCount = (restartKeys entries).length := by
    rw [h.count, length_restartOffsets]
  have hkeys : (restartKeys entries).Pairwise (· < ·) := by
    rw [restartKeys, List.pairwise_map]
    exact (List.pairwise_map.mp hsorted).sublist List.filter_sublist
  have hpos : 0 < b.restartCount := by
    rw [hcount]
    cases entries with
    | nil => exact absurd rfl hne
    | cons e entries =>
      rw [restartKeys, List.filter_cons_of_pos (h.first e rfl)]
      exact Nat.succ_pos _
  have hless : ∀ i < b.restartCount, restartNeedleLess b want i = some (decide (want < (restartKeys entries).getD i [])) := by
    intro i hi
    rw [hcount] at hi
    have hget := List.getElem?_eq_getElem hi
    rw [restartNeedleLess_restart h hget, List.getD_eq_getElem?_getD, hget]
    rfl
  have hmono : ∀ i j, i < j → j < b.restartCount → want < (restartKeys entries).getD i [] →
      want < (restartKeys entries).getD j [] := by
    intro i j hij hj hlt
    rw [hcount] at hj
    rw [List.getD_eq_getElem _ _ (hij.trans hj)] at hlt
    rw [List.getD_eq_getElem _ _ hj]
    exact hlt.trans (List.pairwise_iff_getElem.mp hkeys i j _ hj hij)
  obtain ⟨i, hfind, hle, hbelow, -⟩ := firstPass_split hpos hless hmono
  refine ⟨i, hfind, ?_⟩
  by_cases hzero : 0 < i
  · have hi : i - 1 < (restartOffsets b.hashId (b.headerOff + 4) entries).length := by
      rw [← h.count]
      omega
    have hoff := List.getElem?_eq_getElem hi
    obtain ⟨pre, e, post, rfl, hrestart, heq, hkey⟩ := restartOffsets_getElem hoff
    have hnot := hbelow (i - 1) (by omega)
    rw [List.getD_eq_getElem?_getD, hkey, Option.getD_some, not_lt] at hnot
    refine ⟨pre, e :: post, rfl, pairwise_split hsorted rfl hnot, ?_, ?_⟩
    · intro e' he'
      obtain rfl := Option.some.inj he'
      exact h.follows.1.restart hrestart
    · rw [if_pos hzero, h.restartOffset _ _ hoff, heq]
  · refine ⟨[], entries, rfl, fun e he => absurd he List.not_mem_nil, ?_, ?_⟩
    · intro e he
      cases entries with
      | nil => cases he
      | cons e' entries =>
        obtain rfl := Option.some.inj he
        exact h.chained.1.restart (h.first e' rfl)
    · rw [if_neg hzero]
      rfl

theorem Block.Reads.seekKey (h : b.Reads entries) (hne : entries ≠ [])
    (hsorted : (entries.map Entry.record).Pairwise fun a b => a.key < b.key)
    (htype : ∀ e ∈ entries, e.record.type = b.type) (hnamed : ∀ e ∈ entries, e.record.Named) (it : BlockIter)
    (want : List UInt8) :
    ∃ it', blockIterSeekKey b it want = .ok it' ∧
      Yields b ((entries.map Entry.record).filter fun rec => want ≤ rec.key) it' := by
  obtain ⟨i, hfind, pre, post, rfl, hpre, hshared, hoff⟩ := seek_start h hne hsorted want
  have hat : (BlockIter.mk (if 0 < i then b.restartOffset (i - 1) else b.headerOff + 4) it.lastKey).At b pre post := by
    refine ⟨hoff, fun e he => ?_⟩
    rw [hshared e he]
    rfl
  have hpost : ∀ e ∈ post, e.record.type = b.type := fun e he => htype e (List.mem_append_right _ he)
  have hpost' : ∀ e ∈ post, e.record.Named := fun e he => hnamed e (List.mem_append_right _ he)
  have hinit : (Record.init b.type).type = b.type := by
    cases b.type <;> rfl
  obtain ⟨it', pre', post', hsplit, hloop, hat', rfl⟩ := @seekLoop_at _ want _ _ _ h hat hpost hpost' _ hinit
  refine ⟨it', ?_, ?_⟩
  · rw [blockIterSeekKey, hfind]
    exact hloop
  · have hsub : ∀ e ∈ post.dropWhile fun e => e.record.key < want, e ∈ post := fun e he =>
      (List.dropWhile_sublist _).subset he
    have hyields := hat'.yields (hsplit ▸ h) (fun e he => hpost e (hsub e he)) fun e he => hpost' e (hsub e he)
    have hpreNil : (pre.map Entry.record).filter (fun rec => want ≤ rec.key) = [] := by
      refine List.filter_eq_nil_iff.mpr fun rec hrec => ?_
      obtain ⟨e, he, rfl⟩ := List.mem_map.mp hrec
      simpa using hpre e he
    rw [List.map_append] at hsorted ⊢
    rw [List.filter_append, hpreNil, List.nil_append, filter_eq_dropWhile (List.pairwise_append.mp hsorted).2.1,
      List.dropWhile_map]
    exact hyields

lemma length_keyBytes_le (prevKey key : List UInt8) (extra : UInt8) :
    (keyBytes prevKey key extra).length ≤ 20 + key.length := by
  have h₁ := @length_encodeVarint_le (UInt64.ofNat (commonPrefixSize prevKey key)).toNat (UInt64.toNat_lt _)
  have h₂ := @length_encodeVarint_le ((UInt64.ofNat (key.length - commonPrefixSize prevKey key) <<< 3) |||
    extra.toUInt64).toNat (UInt64.toNat_lt _)
  simp only [keyBytes, List.length_append, List.length_drop]
  omega

lemma BlockWriter.add_of_room {rec : Record} (hkey : rec.key ≠ [])
    (h : w.next + 3 * w.restarts.length + 25 + rec.key.length + (rec.bytes w.hashId).length ≤ w.blockSize) :
    ∃ w', w.add rec = .ok w' ∧ w.SameBlock w' ∧ w'.restarts.length ≤ w.restarts.length + 1 ∧
      w'.next ≤ w.next + 20 + rec.key.length + (rec.bytes w.hashId).length := by
  have hbytes : ((w.entry rec).bytes w.hashId).length =
      (keyBytes w.prevKey rec.key rec.valType).length + (rec.bytes w.hashId).length := List.length_append
  have hlen := length_keyBytes_le w.prevKey rec.key rec.valType
  have hrestarts : (w.nextRestarts rec).length ≤ w.restarts.length + 1 := by
    rw [BlockWriter.nextRestarts]
    split
    · rw [List.length_append, List.length_singleton]
    · exact Nat.le_succ _
  rw [BlockWriter.add_eq, if_neg hkey, if_neg (by omega)]
  refine ⟨_, rfl, ⟨rfl, rfl, rfl, rfl⟩, hrestarts, ?_⟩
  change w.headerOff + 4 + (w.body ++ (w.entry rec).bytes w.hashId).length ≤ _
  rw [List.length_append, BlockWriter.next]
  omega

def indexOfA : Record :=
  .index ⟨5, [97]⟩

end GitCore.Reftable.Structs
