import Mathlib.Data.List.TakeWhile
import GitCore.Lib.Wire
import GitCore.Reftable.Record

/-!
# Records of the four types

The structs of `reftable-record.h` and `record.h` with their members, NULL strings included, and what
`record.c` does with them apart from their encoding: keys, value types, comparison and equality. `Record` is
`struct reftable_record`, the tagged union of them.
-/

namespace GitCore.Reftable.Structs

def REFTABLE_HASH_SIZE_MAX : Nat := 32

inductive HashId
  | sha1
  | sha256
deriving DecidableEq, Repr

def HashId.hashSize : HashId → Nat
  | .sha1 => 20
  | .sha256 => 32

lemma HashId.hashSize_le (id : HashId) : id.hashSize ≤ REFTABLE_HASH_SIZE_MAX := by
  cases id <;> decide

/-- `unsigned char [REFTABLE_HASH_SIZE_MAX]` -/
structure HashArray where
  bytes : List UInt8
  length_eq : bytes.length = REFTABLE_HASH_SIZE_MAX
deriving DecidableEq

def HashArray.zero : HashArray :=
  ⟨List.replicate REFTABLE_HASH_SIZE_MAX 0, List.length_replicate⟩

def HashArray.copy (hash : HashArray) (bytes : List UInt8) (h : bytes.length ≤ REFTABLE_HASH_SIZE_MAX) :
    HashArray where
  bytes := bytes ++ hash.bytes.drop bytes.length
  length_eq := by
    rw [List.length_append, List.length_drop, hash.length_eq]
    omega

def HashArray.take (hash : HashArray) (id : HashId) : List UInt8 :=
  hash.bytes.take id.hashSize

@[simp] lemma HashArray.length_take (hash : HashArray) (id : HashId) : (hash.take id).length = id.hashSize := by
  rw [HashArray.take, List.length_take, hash.length_eq, Nat.min_eq_left id.hashSize_le]

def cString (buf : List UInt8) : CString where
  bytes := buf.takeWhile (· ≠ 0)
  no_nul := by
    intro h
    have hne := List.mem_takeWhile_imp h
    simp at hne

def orEmpty (s : Option CString) : List UInt8 :=
  match s with
  | some s => s.bytes
  | none => []

inductive RefValue
  | deletion
  | val1 (value : HashArray)
  | val2 (value target : HashArray)
  | symref (target : CString)
deriving DecidableEq

structure RefRecord where
  refname : CString
  updateIndex : UInt64
  value : RefValue
deriving DecidableEq

inductive LogValueType
  | deletion
  | update
deriving DecidableEq

/-- `value.update` of a log record, which is there whatever the value type is. -/
structure LogUpdate where
  newHash : HashArray
  oldHash : HashArray
  name : Option CString
  email : Option CString
  time : UInt64
  tzOffset : UInt16
  message : Option CString
deriving DecidableEq

structure LogRecord where
  refname : CString
  updateIndex : UInt64
  valueType : LogValueType
  update : LogUpdate
deriving DecidableEq

structure ObjRecord where
  hashPrefix : List UInt8
  offsets : List UInt64
deriving DecidableEq

structure IndexRecord where
  offset : UInt64
  lastKey : List UInt8
deriving DecidableEq

inductive Record
  | ref (rec : RefRecord)
  | log (rec : LogRecord)
  | obj (rec : ObjRecord)
  | index (rec : IndexRecord)
deriving DecidableEq

/-- `REFTABLE_BLOCK_TYPE_*` -/
inductive BlockType
  | ref
  | log
  | obj
  | index
deriving DecidableEq, Repr

def Record.type : Record → BlockType
  | .ref _ => .ref
  | .log _ => .log
  | .obj _ => .obj
  | .index _ => .index

/-- `reftable_log_record_key`: the name with its NUL, and the update index counted down. -/
def LogRecord.key (rec : LogRecord) : List UInt8 :=
  rec.refname.bytes ++ 0 :: beBytes 8 (2 ^ 64 - 1 - rec.updateIndex.toNat)

def Record.key : Record → List UInt8
  | .ref rec => rec.refname.bytes
  | .log rec => rec.key
  | .obj rec => rec.hashPrefix
  | .index rec => rec.lastKey

def RefValue.valType : RefValue → UInt8
  | .deletion => 0
  | .val1 _ => 1
  | .val2 _ _ => 2
  | .symref _ => 3

/-- `reftable_obj_record_val_type`: a count that fits three bits. -/
def ObjRecord.valType (rec : ObjRecord) : UInt8 :=
  if 0 < rec.offsets.length ∧ rec.offsets.length < 8 then UInt8.ofNat rec.offsets.length else 0

def Record.valType : Record → UInt8
  | .ref rec => rec.value.valType
  | .log rec => if rec.valueType = .deletion then 0 else 1
  | .obj rec => rec.valType
  | .index _ => 0

lemma Record.valType_lt (rec : Record) : rec.valType.toNat < 8 := by
  cases rec with
  | ref rec => cases h : rec.value <;> simp [Record.valType, RefValue.valType, h]
  | log rec =>
    rw [Record.valType]
    split <;> decide
  | obj rec =>
    rw [Record.valType, ObjRecord.valType]
    split
    · rw [UInt8.toNat_ofNat']
      omega
    · decide
  | index rec => exact Nat.zero_lt_succ 7

/-- `reftable_obj_record_cmp_void`: the longer length is compared, so `memcmp` reads behind the end of the shorter
prefix. -/
def ObjRecord.cmp (a b : ObjRecord) : Option Int :=
  if a.hashPrefix.length = b.hashPrefix.length then some (reftableBufCmp a.hashPrefix b.hashPrefix) else none

/-- `reftable_log_record_cmp_void`: the difference of the update indices becomes an `int`. -/
def LogRecord.cmp (a b : LogRecord) : Int :=
  let cmp := strcmp a.refname b.refname
  if cmp ≠ 0 then cmp else toCInt (b.updateIndex - a.updateIndex)

/-- `reftable_record_cmp`; `none` for records of different types, and where memory outside a buffer decides. -/
def reftableRecordCmp (a b : Record) : Option Int :=
  match a, b with
  | .ref a, .ref b => some (strcmp a.refname b.refname)
  | .log a, .log b => some (LogRecord.cmp a b)
  | .obj a, .obj b => ObjRecord.cmp a b
  | .index a, .index b => some (reftableBufCmp a.lastKey b.lastKey)
  | _, _ => none

def RefRecord.equal (a b : RefRecord) (id : HashId) : Prop :=
  a.refname = b.refname ∧ a.updateIndex = b.updateIndex ∧
    match a.value, b.value with
    | .deletion, .deletion => True
    | .val1 a, .val1 b => a.take id = b.take id
    | .val2 a ta, .val2 b tb => a.take id = b.take id ∧ ta.take id = tb.take id
    | .symref a, .symref b => a = b
    | _, _ => False

def LogRecord.equal (a b : LogRecord) (id : HashId) : Prop :=
  a.refname = b.refname ∧ a.updateIndex = b.updateIndex ∧ a.valueType = b.valueType ∧
    (a.valueType = .update →
      orEmpty a.update.name = orEmpty b.update.name ∧ a.update.time = b.update.time ∧
        a.update.tzOffset = b.update.tzOffset ∧ orEmpty a.update.email = orEmpty b.update.email ∧
        orEmpty a.update.message = orEmpty b.update.message ∧ a.update.oldHash.take id = b.update.oldHash.take id ∧
        a.update.newHash.take id = b.update.newHash.take id)

def Record.equal (a b : Record) (id : HashId) : Prop :=
  match a, b with
  | .ref a, .ref b => a.equal b id
  | .log a, .log b => a.equal b id
  | .obj a, .obj b => a.hashPrefix = b.hashPrefix ∧ a.offsets = b.offsets
  | .index a, .index b => a.offset = b.offset ∧ a.lastKey = b.lastKey
  | _, _ => False

lemma Record.equal_key {a b : Record} {id : HashId} (h : a.equal b id) : a.type = b.type ∧ a.key = b.key := by
  cases a <;> cases b <;> simp only [Record.equal] at h
  case ref.ref a b => exact ⟨rfl, by rw [Record.key, Record.key, h.1]⟩
  case log.log a b => exact ⟨rfl, by rw [Record.key, Record.key, LogRecord.key, LogRecord.key, h.1, h.2.1]⟩
  case obj.obj a b => exact ⟨rfl, h.1⟩
  case index.index a b => exact ⟨rfl, h.2⟩

def LogRecord.toLogRecord (rec : LogRecord) : Reftable.LogRecord where
  refname := rec.refname
  updateIndex := rec.updateIndex
  value :=
    match rec.valueType with
    | .deletion => .deletion
    | .update => .update
        { oldHash := rec.update.oldHash.bytes
          newHash := rec.update.newHash.bytes
          name := cString (orEmpty rec.update.name)
          email := cString (orEmpty rec.update.email)
          time := rec.update.time
          tzOffset := rec.update.tzOffset
          message := cString (orEmpty rec.update.message) }

lemma LogRecord.toLogRecord_key (rec : LogRecord) : rec.toLogRecord.key = rec.key :=
  rfl

lemma LogRecord.toLogRecord_cmp (a b : LogRecord) :
    Reftable.LogRecord.cmp a.toLogRecord b.toLogRecord = LogRecord.cmp a b :=
  rfl

end GitCore.Reftable.Structs
