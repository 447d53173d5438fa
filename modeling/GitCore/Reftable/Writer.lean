import GitCore.Reftable.Block

/-!
# The table writer

`writer.c`: records are added to a block until it is full, every block that is flushed leaves an index record, and
at the end of a section the index records are written into blocks themselves, level by level. Writes to the file
succeed here, and of the file only its length is kept.
-/

namespace GitCore.Reftable.Structs

structure WriteOptions where
  unpadded : Bool
  blockSize : Nat
  restartInterval : Nat
  hashId : HashId

def headerSize : HashId → Nat
  | .sha1 => 24
  | .sha256 => 28

/-- `struct reftable_writer`. What has an index record has been written. -/
structure Writer where
  opts : WriteOptions
  lastKey : List UInt8
  next : Nat
  blockWriter : Option BlockWriter
  index : List IndexRecord
  written : index ≠ [] → next ≠ 0

lemma Writer.written_nil (w : Writer) (h : ([] : List IndexRecord) ≠ []) : w.next ≠ 0 := absurd rfl h

def Writer.freshBlock (w : Writer) (type : BlockType) : BlockWriter :=
  .init type w.opts.hashId w.opts.blockSize (if w.next = 0 then headerSize w.opts.hashId else 0) w.opts.restartInterval

def Writer.reinitBlockWriter (w : Writer) (type : BlockType) : Writer :=
  { w with
    lastKey := []
    blockWriter := some (w.freshBlock type) }

def Writer.blank (opts : WriteOptions) : Writer where
  opts := opts
  lastKey := []
  next := 0
  blockWriter := none
  index := []
  written := fun h => absurd rfl h

/-- `reftable_writer_new` with the defaults of `options_set_defaults` filled in. -/
def Writer.new (opts : WriteOptions) : Except ReftableError Writer :=
  if 2 ^ 24 ≤ opts.blockSize then .error .api else .ok ((Writer.blank opts).reinitBlockWriter .ref)

section Deflate

variable (deflate : List UInt8 → List UInt8)

def Writer.flushNonemptyBlock (w : Writer) (bw : BlockWriter) : Writer :=
  let rawBytes := bw.headerOff + (bw.finish deflate).length
  let padding := if w.opts.unpadded ∨ bw.type = .log then 0 else w.opts.blockSize - rawBytes
  { w with
    next := w.next + (padding + rawBytes)
    blockWriter := none
    index := w.index ++ [⟨UInt64.ofNat w.next, bw.lastKey⟩]
    written := by
      intro _
      have hpos : 0 < rawBytes := by
        rw [show rawBytes = bw.headerOff + (bw.finish deflate).length by rfl, BlockWriter.finish]
        simp only [List.cons_append, List.length_cons]
        omega
      omega }

def Writer.flushBlock (w : Writer) : Writer :=
  match w.blockWriter with
  | none => w
  | some bw => if bw.entries = 0 then w else w.flushNonemptyBlock deflate bw

def Writer.addFresh (w : Writer) (rec : Record) : Except ReftableError Writer :=
  ((w.freshBlock rec.type).add rec).map fun bw => { w.reinitBlockWriter rec.type with blockWriter := some bw }

/-- The part of `writer_add_record` behind the checks: a block that is full is flushed. -/
def Writer.addToBlock (w : Writer) (bw : BlockWriter) (rec : Record) : Except ReftableError Writer :=
  match bw.add rec with
  | .ok bw => .ok { w with blockWriter := some bw }
  | .error .entryTooBig => (w.flushBlock deflate).addFresh rec
  | .error e => .error e

def Writer.addRecord (w : Writer) (rec : Record) : Except ReftableError Writer :=
  if 0 ≤ reftableBufCmp w.lastKey rec.key then .error .api
  else
    let w := { w with lastKey := rec.key }
    let w := if w.blockWriter.isNone then w.reinitBlockWriter rec.type else w
    match w.blockWriter with
    | none => .error .abort
    | some bw => if bw.type ≠ rec.type then .error .api else w.addToBlock deflate bw rec

def Writer.addRecords (w : Writer) (recs : List Record) : Except ReftableError Writer :=
  recs.foldlM (Writer.addRecord deflate) w

def Writer.threshold (w : Writer) : Nat :=
  if w.opts.unpadded then 1 else 3

/-- A round of the loop in `writer_finish_section`: the index records become the records of index blocks. -/
def Writer.indexLevel (w : Writer) : Except ReftableError Writer :=
  let start : Writer :=
    { w.reinitBlockWriter .index with
      index := []
      written := w.written_nil }
  (start.addRecords deflate (w.index.map .index)).map (Writer.flushBlock deflate)

def Writer.sectionStep (w : Writer) : Writer ⊕ Except ReftableError Writer :=
  if w.threshold < w.index.length then
    match w.indexLevel deflate with
    | .ok w => .inl w
    | .error e => .inr (.error e)
  else .inr (.ok
    { w with
      lastKey := []
      index := []
      written := w.written_nil })

def Writer.finishSection (fuel : Nat) (w : Writer) : Option (Except ReftableError Writer) :=
  runFor (Writer.sectionStep deflate) fuel (w.flushBlock deflate)

end Deflate

end GitCore.Reftable.Structs
