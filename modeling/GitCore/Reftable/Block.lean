import GitCore.Lib.Loop
import GitCore.Lib.Search
import GitCore.Reftable.Encode

/-!
# Blocks

`block.c`: the block writer, which adds records behind each other and notes restart points, and the block
iterator, which searches the restart points and then decodes record by record.
-/

namespace GitCore.Reftable.Structs

def MAX_RESTARTS : Nat := 65535

def BlockType.byte : BlockType → UInt8
  | .ref => 114
  | .log => 103
  | .obj => 111
  | .index => 105

def BlockType.ofByte (typ : UInt8) : Option BlockType :=
  [BlockType.ref, .log, .obj, .index].find? fun type => type.byte = typ

structure BlockWriter where
  type : BlockType
  hashId : HashId
  blockSize : Nat
  headerOff : Nat
  restartInterval : Nat
  entries : Nat
  restarts : List Nat
  lastKey : List UInt8
  body : List UInt8
deriving DecidableEq

def BlockWriter.init (type : BlockType) (hashId : HashId) (blockSize headerOff restartInterval : Nat) : BlockWriter where
  type := type
  hashId := hashId
  blockSize := blockSize
  headerOff := headerOff
  restartInterval := restartInterval
  entries := 0
  restarts := []
  lastKey := []
  body := []

def BlockWriter.next (w : BlockWriter) : Nat :=
  w.headerOff + 4 + w.body.length

def BlockWriter.registerRestart (w : BlockWriter) (bytes : List UInt8) (isRestart : Bool) (key : List UInt8) :
    Except ReftableError BlockWriter :=
  let restarts := if w.restarts.length < MAX_RESTARTS ∧ isRestart then w.restarts ++ [w.next] else w.restarts
  if w.blockSize - w.next < 2 + 3 * restarts.length + bytes.length then .error .entryTooBig
  else .ok { w with
    restarts := restarts
    body := w.body ++ bytes
    lastKey := key
    entries := w.entries + 1 }

def BlockWriter.add (w : BlockWriter) (rec : Record) : Except ReftableError BlockWriter :=
  let last := if w.entries % w.restartInterval = 0 then [] else w.lastKey
  if rec.key = [] then .error .api
  else do
    let key ← reftableEncodeKey last rec.key rec.valType (w.blockSize - w.next)
    let val ← rec.encode w.hashId (w.blockSize - w.next - key.2.length)
    w.registerRestart (key.2 ++ val) key.1 rec.key

def BlockWriter.restartTable (w : BlockWriter) : List UInt8 :=
  w.restarts.flatMap (beBytes 3) ++ beBytes 2 w.restarts.length

/-- `block_writer_finish`: the block behind the file header, with the length that it has before a log block is
compressed. -/
def BlockWriter.finish (w : BlockWriter) (deflate : List UInt8 → List UInt8) : List UInt8 :=
  let content := w.body ++ w.restartTable
  w.type.byte :: beBytes 3 (w.headerOff + 4 + content.length) ++ if w.type = .log then deflate content else content

structure Block where
  type : BlockType
  hashId : HashId
  data : List UInt8
  headerOff : Nat
  restartOff : Nat
  restartCount : Nat

/-- The data of a block of a size from the bytes that are read, for a log block behind `skip` bytes inflated.
`inflate` is given a source and the length of the destination. -/
def blockData (inflate : List UInt8 → Nat → Option (List UInt8)) (type : BlockType) (data : List UInt8)
    (skip blockSize : Nat) : Except ReftableError (List UInt8) :=
  if type = .log then
    match inflate (data.drop skip) (blockSize - skip) with
    | some content => if content.length + skip = blockSize then .ok (data.take skip ++ content) else .error .format
    | none => .error .zlib
  else .ok (data.take blockSize)

/-- `reftable_block_init` on the bytes that are read from the offset of the block on. -/
def blockInit (inflate : List UInt8 → Nat → Option (List UInt8)) (data : List UInt8) (headerSize : Nat)
    (hashId : HashId) : Except ReftableError Block :=
  match BlockType.ofByte (data.getD headerSize 0) with
  | none => .error .format
  | some type => do
    let blockSize := beValue ((data.drop (headerSize + 1)).take 3)
    let data ← blockData inflate type data (headerSize + 4) blockSize
    let restartCount := beValue ((data.drop (blockSize - 2)).take 2)
    return {
      type := type
      hashId := hashId
      data := data
      headerOff := headerSize
      restartOff := blockSize - 2 - 3 * restartCount
      restartCount := restartCount }

def Block.view (b : Block) (off : Nat) : List UInt8 :=
  (b.data.take b.restartOff).drop off

def Block.restartOffset (b : Block) (idx : Nat) : Nat :=
  beValue ((b.data.drop (b.restartOff + 3 * idx)).take 3)

def restartNeedleLess (b : Block) (needle : List UInt8) (idx : Nat) : Option Bool :=
  match reftableDecodeKeylen (b.view (b.restartOffset idx)) with
  | .error _ => none
  | .ok lens =>
    if lens.1.1 ≠ 0 ∨ lens.2.length < lens.1.2.1 then none
    else some (decide (reftableBufCmp needle (lens.2.take lens.1.2.1) < 0))

structure BlockIter where
  nextOff : Nat
  lastKey : List UInt8
deriving DecidableEq

def Block.seekStart (b : Block) : BlockIter :=
  ⟨b.headerOff + 4, []⟩

/-- `block_iter_next` with the record that is decoded into; `none` is the end. -/
def blockIterNext (b : Block) (it : BlockIter) (rec : Record) : Except ReftableError (Option (BlockIter × Record)) :=
  if b.restartOff ≤ it.nextOff then .ok none
  else
    match reftableDecodeKey it.lastKey (b.view it.nextOff) with
    | .error _ => .error .failure
    | .ok key =>
      if key.1.1 = [] then .error .format
      else
        match rec.decode key.1.1 key.1.2 b.hashId key.2 with
        | .error _ => .error .failure
        | .ok val => .ok (some (⟨it.nextOff + ((b.view it.nextOff).length - val.2.length), key.1.1⟩, val.1))

lemma getInt_length {view : List UInt8} {r : UInt64 × List UInt8} (h : getInt view = .ok r) :
    r.2.length < view.length := by
  have hconsumed := Varint.consumed_eq view
  rw [getInt] at h
  rw [Varint.consumed] at hconsumed
  cases hget : Varint.getVarInt view with
  | none =>
    rw [hget] at h
    cases h
  | some value =>
    rw [hget] at h hconsumed
    obtain rfl := Except.ok.inj h
    rw [Option.map_some, Option.some_inj] at hconsumed
    rcases hwith : Varint.decodeWith (fun val => val = 0 ∨ Varint.MSB val 7 ≠ 0) view with _ | _ | r
    · rw [hwith] at hconsumed
      cases hconsumed
    · rw [hwith] at hconsumed
      cases hconsumed
    · rw [hwith] at hconsumed
      have heq : (value.1, view.drop value.2) = r := Option.some.inj hconsumed
      obtain ⟨c, front, hview⟩ := Varint.decodeWith_suffix Varint.cutsOff_MSB hwith
      have hlen := congrArg List.length hview
      rw [List.length_append, List.length_cons, ← heq] at hlen
      dsimp only at hlen ⊢
      omega

lemma getBytes_length {len : Nat} {view : List UInt8} {r : List UInt8 × List UInt8} (h : getBytes len view = .ok r) :
    r.2.length ≤ view.length := by
  rw [getBytes] at h
  split at h
  · cases h
  · obtain rfl := Except.ok.inj h
    rw [List.length_drop]
    exact Nat.sub_le _ _

lemma getHash_length {id : HashId} {hash : HashArray} {view : List UInt8} {r : HashArray × List UInt8}
    (h : getHash id hash view = .ok r) : r.2.length ≤ view.length := by
  rw [getHash] at h
  split at h
  · cases h
  · obtain rfl := Except.ok.inj h
    rw [List.length_drop]
    exact Nat.sub_le _ _

lemma bind_eq_ok {α β : Type} {x : Except ReftableError α} {f : α → Except ReftableError β} {b : β} :
    (x >>= f) = .ok b ↔ ∃ a, x = .ok a ∧ f a = .ok b := by
  cases x with
  | error e => simp [bind, Except.bind]
  | ok a => simp [bind, Except.bind]

lemma map_eq_ok {α β : Type} {x : Except ReftableError α} {f : α → β} {b : β} :
    x.map f = .ok b ↔ ∃ a, x = .ok a ∧ f a = b := by
  cases x with
  | error e => simp [Except.map]
  | ok a => simp [Except.map]

lemma decodeString_length {view : List UInt8} {r : List UInt8 × List UInt8} (h : decodeString view = .ok r) :
    r.2.length ≤ view.length := by
  rw [decodeString, bind_eq_ok] at h
  obtain ⟨size, hsize, h⟩ := h
  exact (getBytes_length h).trans (getInt_length hsize).le

lemma reftableDecodeKey_length {lastKey view : List UInt8} {r : (List UInt8 × UInt8) × List UInt8}
    (h : reftableDecodeKey lastKey view = .ok r) : r.2.length < view.length := by
  rw [reftableDecodeKey, bind_eq_ok] at h
  obtain ⟨lens, hlens, h⟩ := h
  rw [reftableDecodeKeylen, bind_eq_ok] at hlens
  obtain ⟨prefixLen, hprefix, hlens⟩ := hlens
  rw [bind_eq_ok] at hlens
  obtain ⟨suffixLen, hsuffix, hlens⟩ := hlens
  have h₁ := getInt_length hprefix
  have h₂ := getInt_length hsuffix
  obtain rfl := Except.ok.inj hlens
  split at h
  · cases h
  · obtain rfl := Except.ok.inj h
    rw [List.length_drop]
    dsimp only
    omega

lemma decodeOffsets_length {last : UInt64} {count : Nat} {view : List UInt8} {r : List UInt64 × List UInt8}
    (h : decodeOffsets last count view = .ok r) : r.2.length ≤ view.length := by
  induction count generalizing last view r with
  | zero =>
    obtain rfl := Except.ok.inj h
    exact le_refl _
  | succ count ih =>
    rw [decodeOffsets, bind_eq_ok] at h
    obtain ⟨delta, hdelta, h⟩ := h
    rw [bind_eq_ok] at h
    obtain ⟨offsets, hoffsets, h⟩ := h
    obtain rfl := Except.ok.inj h
    exact (ih hoffsets).trans (getInt_length hdelta).le

lemma RefRecord.decode_length {key : List UInt8} {valType : UInt8} {id : HashId} {view : List UInt8}
    {r : RefRecord × List UInt8} (h : RefRecord.decode key valType id view = .ok r) : r.2.length ≤ view.length := by
  rw [RefRecord.decode, bind_eq_ok] at h
  obtain ⟨updateIndex, hindex, h⟩ := h
  refine le_trans ?_ (getInt_length hindex).le
  dsimp only at h
  split_ifs at h
  · obtain ⟨hash, hhash, h⟩ := bind_eq_ok.mp h
    obtain rfl := Except.ok.inj h
    exact getHash_length hhash
  · cases h
  · obtain ⟨hash, hhash, h⟩ := bind_eq_ok.mp h
    obtain ⟨target, htarget, h⟩ := bind_eq_ok.mp h
    obtain rfl := Except.ok.inj h
    exact (getHash_length htarget).trans (getHash_length hhash)
  · obtain ⟨target, htarget, h⟩ := bind_eq_ok.mp h
    obtain rfl := Except.ok.inj h
    exact decodeString_length htarget
  · obtain rfl := Except.ok.inj h
    exact le_refl _
  · cases h

lemma LogRecord.decode_length {rec : LogRecord} {key : List UInt8} {valType : UInt8} {id : HashId} {view : List UInt8}
    {r : LogRecord × List UInt8} (h : rec.decode key valType id view = .ok r) : r.2.length ≤ view.length := by
  rw [LogRecord.decode] at h
  dsimp only at h
  split_ifs at h
  · obtain rfl := Except.ok.inj h
    exact le_refl _
  · obtain ⟨oldHash, h₁, h⟩ := bind_eq_ok.mp h
    obtain ⟨newHash, h₂, h⟩ := bind_eq_ok.mp h
    obtain ⟨name, h₃, h⟩ := bind_eq_ok.mp h
    obtain ⟨email, h₄, h⟩ := bind_eq_ok.mp h
    obtain ⟨time, h₅, h⟩ := bind_eq_ok.mp h
    obtain ⟨tz, h₆, h⟩ := bind_eq_ok.mp h
    obtain ⟨message, h₇, h⟩ := bind_eq_ok.mp h
    obtain rfl := Except.ok.inj h
    calc message.2.length ≤ tz.2.length := decodeString_length h₇
      _ ≤ time.2.length := getBytes_length h₆
      _ ≤ email.2.length := (getInt_length h₅).le
      _ ≤ name.2.length := decodeString_length h₄
      _ ≤ newHash.2.length := decodeString_length h₃
      _ ≤ oldHash.2.length := getHash_length h₂
      _ ≤ view.length := getHash_length h₁

lemma ObjRecord.decode_length {key : List UInt8} {valType : UInt8} {view : List UInt8} {r : ObjRecord × List UInt8}
    (h : ObjRecord.decode key valType view = .ok r) : r.2.length ≤ view.length := by
  rw [ObjRecord.decode] at h
  split_ifs at h
  obtain ⟨count, hcount, h⟩ := bind_eq_ok.mp h
  have hle : count.2.length ≤ view.length := by
    rw [decodeCount] at hcount
    split at hcount
    · exact (getInt_length hcount).le
    · obtain rfl := Except.ok.inj hcount
      exact le_refl _
  refine le_trans ?_ hle
  split at h
  · obtain rfl := Except.ok.inj h
    exact le_refl _
  · split_ifs at h
    obtain ⟨first, hfirst, h⟩ := bind_eq_ok.mp h
    obtain ⟨offsets, hoffsets, h⟩ := bind_eq_ok.mp h
    obtain rfl := Except.ok.inj h
    exact (decodeOffsets_length hoffsets).trans (getInt_length hfirst).le

lemma Record.decode_length {rec : Record} {key : List UInt8} {valType : UInt8} {id : HashId} {view : List UInt8}
    {r : Record × List UInt8} (h : rec.decode key valType id view = .ok r) : r.2.length ≤ view.length := by
  cases rec with
  | ref rec =>
    obtain ⟨r', hdecode, rfl⟩ := map_eq_ok.mp h
    exact RefRecord.decode_length hdecode
  | log rec =>
    obtain ⟨r', hdecode, rfl⟩ := map_eq_ok.mp h
    exact LogRecord.decode_length hdecode
  | obj rec =>
    obtain ⟨r', hdecode, rfl⟩ := map_eq_ok.mp h
    exact ObjRecord.decode_length hdecode
  | index rec =>
    obtain ⟨r', hdecode, rfl⟩ := map_eq_ok.mp h
    rw [IndexRecord.decode, bind_eq_ok] at hdecode
    obtain ⟨offset, hoffset, hdecode⟩ := hdecode
    obtain rfl := Except.ok.inj hdecode
    exact (getInt_length hoffset).le

lemma blockIterNext_moves {b : Block} {it : BlockIter} {rec : Record} {r : BlockIter × Record}
    (h : blockIterNext b it rec = .ok (some r)) : b.restartOff - r.1.nextOff < b.restartOff - it.nextOff := by
  rw [blockIterNext] at h
  split_ifs at h with hend
  · cases h
  split at h
  · cases h
  · next key hkey =>
    split_ifs at h
    split at h
    · cases h
    · next val hval =>
      obtain rfl := Option.some.inj (Except.ok.inj h)
      have h₁ := reftableDecodeKey_length hkey
      have h₂ := Record.decode_length hval
      dsimp only
      omega

def Record.init : BlockType → Record
  | .ref => .ref ⟨⟨[], nul_notMem_nil⟩, 0, .deletion⟩
  | .log => .log ⟨⟨[], nul_notMem_nil⟩, 0, .deletion, ⟨.zero, .zero, none, none, 0, 0, none⟩⟩
  | .obj => .obj ⟨[], []⟩
  | .index => .index ⟨0, []⟩

/-- A round of the linear search: `next_off` is set back in front of a record that is not below `want`, with its
key as `last_key`. -/
def seekStep (b : Block) (want : List UInt8) (s : BlockIter × Record) :
    (BlockIter × Record) ⊕ Except ReftableError BlockIter :=
  match blockIterNext b s.1 s.2 with
  | .error e => .inr (.error e)
  | .ok none => .inr (.ok s.1)
  | .ok (some next) =>
    if 0 ≤ reftableBufCmp next.2.key want then .inr (.ok ⟨s.1.nextOff, next.2.key⟩)
    else .inl (⟨next.1.nextOff, next.2.key⟩, next.2)

lemma seekStep_moves (b : Block) (want : List UInt8) (s s' : BlockIter × Record) (h : seekStep b want s = .inl s') :
    b.restartOff - s'.1.nextOff < b.restartOff - s.1.nextOff := by
  rw [seekStep] at h
  split at h
  · cases h
  · cases h
  · next next hnext =>
    split_ifs at h
    obtain rfl := Sum.inl.inj h
    have hmoves := blockIterNext_moves hnext
    exact hmoves

def blockIterSeekKey (b : Block) (it : BlockIter) (want : List UInt8) : Except ReftableError BlockIter :=
  match firstPass (restartNeedleLess b want) b.restartCount with
  | none => .error .format
  | some i =>
    let off := if 0 < i then b.restartOffset (i - 1) else b.headerOff + 4
    loop (seekStep b want) (fun s => b.restartOff - s.1.nextOff) (seekStep_moves b want)
      (⟨off, it.lastKey⟩, Record.init b.type)

end GitCore.Reftable.Structs
