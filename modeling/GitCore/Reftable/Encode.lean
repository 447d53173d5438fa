import GitCore.Varint.Model
import GitCore.Reftable.Structs
import Mathlib.Data.List.GetD

/-!
# Encoded records

`reftable_encode_key`, `reftable_decode_key` and the `encode` and `decode` of the four record types in
`record.c`. A view that is written to is its room, a view that is read is its bytes; views are parts of
blocks, whose sizes fit 24 bits.
-/

namespace GitCore.Reftable.Structs

open Varint (putVarInt getVarInt)

/-- Error codes; `failure` is -1, and `abort` stands for a call of `abort()`. -/
inductive ReftableError
  | entryTooBig
  | format
  | outOfMemory
  | api
  | zlib
  | failure
  | abort
deriving DecidableEq, Repr

/-- Bytes that are written into a view with so much room, or `REFTABLE_ENTRY_TOO_BIG_ERROR`. -/
abbrev Put := Nat → Except ReftableError (List UInt8)

def putBytes (bytes : List UInt8) : Put := fun room =>
  if room < bytes.length then .error .entryTooBig else .ok bytes

def putInt (value : UInt64) : Put := fun room =>
  match putVarInt room value with
  | some (.bytes bytes) => .ok bytes
  | _ => .error .entryTooBig

/-- One write behind the other, with `string_view_consume` in between. -/
def Put.andThen (first second : Put) : Put := fun room => do
  let bytes ← first room
  let bytes' ← second (room - bytes.length)
  return bytes ++ bytes'

def encodeString (str : List UInt8) : Put :=
  (putInt (UInt64.ofNat str.length)).andThen (putBytes str)

def commonPrefixSize : List UInt8 → List UInt8 → Nat
  | a :: as, b :: bs => if a = b then commonPrefixSize as bs + 1 else 0
  | _, _ => 0

def reftableEncodeKey (prevKey key : List UInt8) (extra : UInt8) (room : Nat) :
    Except ReftableError (Bool × List UInt8) := do
  let prefixLen := commonPrefixSize prevKey key
  let suffixLen := key.length - prefixLen
  let bytes ← ((putInt (UInt64.ofNat prefixLen)).andThen
    ((putInt ((UInt64.ofNat suffixLen <<< 3) ||| extra.toUInt64)).andThen (putBytes (key.drop prefixLen)))) room
  return (prefixLen = 0, bytes)

def RefRecord.encode (rec : RefRecord) (id : HashId) : Put :=
  (putInt rec.updateIndex).andThen
    (match rec.value with
    | .symref target => encodeString target.bytes
    | .val2 value target => putBytes (value.take id ++ target.take id)
    | .val1 value => putBytes (value.take id)
    | .deletion => putBytes [])

def LogRecord.encode (rec : LogRecord) (id : HashId) : Put :=
  if rec.valueType = .deletion then putBytes []
  else
    (putBytes (rec.update.oldHash.take id ++ rec.update.newHash.take id)).andThen <|
      (encodeString (orEmpty rec.update.name)).andThen <|
        (encodeString (orEmpty rec.update.email)).andThen <|
          (putInt rec.update.time).andThen <|
            (putBytes (putBe16 rec.update.tzOffset)).andThen (encodeString (orEmpty rec.update.message))

/-- The loop over the offsets behind the first one, each as its difference to the one before. -/
def encodeOffsets (last : UInt64) : List UInt64 → Put
  | [] => putBytes []
  | offset :: offsets => (putInt (offset - last)).andThen (encodeOffsets offset offsets)

def ObjRecord.encode (rec : ObjRecord) : Put :=
  (if rec.offsets.length = 0 ∨ 8 ≤ rec.offsets.length then putInt (UInt64.ofNat rec.offsets.length)
    else putBytes []).andThen
    (match rec.offsets with
    | [] => putBytes []
    | offset :: offsets => (putInt offset).andThen (encodeOffsets offset offsets))

def Record.encode (rec : Record) (id : HashId) : Put :=
  match rec with
  | .ref rec => rec.encode id
  | .log rec => rec.encode id
  | .obj rec => rec.encode
  | .index rec => putInt rec.offset

/-- `get_var_int`, then `string_view_consume`. -/
def getInt (view : List UInt8) : Except ReftableError (UInt64 × List UInt8) :=
  match getVarInt view with
  | some (value, n) => .ok (value, view.drop n)
  | none => .error .format

/-- `memcpy` of `len` bytes behind a check of the length, then `string_view_consume`. -/
def getBytes (len : Nat) (view : List UInt8) : Except ReftableError (List UInt8 × List UInt8) :=
  if view.length < len then .error .format else .ok (view.take len, view.drop len)

def decodeString (view : List UInt8) : Except ReftableError (List UInt8 × List UInt8) := do
  let size ← getInt view
  getBytes size.1.toNat size.2

def reftableDecodeKeylen (view : List UInt8) : Except ReftableError ((Nat × Nat × UInt8) × List UInt8) := do
  let prefixLen ← getInt view
  let suffixLen ← getInt prefixLen.2
  return ((prefixLen.1.toNat, (suffixLen.1 >>> 3).toNat, (suffixLen.1 &&& 7).toUInt8), suffixLen.2)

/-- `reftable_decode_key`: the new `last_key`, the extra bits and what is behind the key. -/
def reftableDecodeKey (lastKey view : List UInt8) : Except ReftableError ((List UInt8 × UInt8) × List UInt8) := do
  let lens ← reftableDecodeKeylen view
  if lens.2.length < lens.1.2.1 ∨ lens.1.1 > lastKey.length then .error .format
  else return ((lastKey.take lens.1.1 ++ lens.2.take lens.1.2.1, lens.1.2.2), lens.2.drop lens.1.2.1)

/-- A hash of `hash_size` bytes that is copied into an array. -/
def getHash (id : HashId) (hash : HashArray) (view : List UInt8) : Except ReftableError (HashArray × List UInt8) :=
  if view.length < id.hashSize then .error .format
  else .ok (hash.copy (view.take id.hashSize)
    ((List.length_take_le id.hashSize view).trans id.hashSize_le), view.drop id.hashSize)

/-- `reftable_ref_record_decode`. The record is zeroed first, so nothing of it is left. -/
def RefRecord.decode (key : List UInt8) (valType : UInt8) (id : HashId) (view : List UInt8) :
    Except ReftableError (RefRecord × List UInt8) := do
  let updateIndex ← getInt view
  let value : RefValue × List UInt8 ←
    if valType = 1 then do
      let value ← getHash id .zero updateIndex.2
      pure (.val1 value.1, value.2)
    else if valType = 2 then
      if updateIndex.2.length < 2 * id.hashSize then .error .format
      else do
        let value ← getHash id .zero updateIndex.2
        let target ← getHash id .zero value.2
        pure (.val2 value.1 target.1, target.2)
    else if valType = 3 then do
      let target ← decodeString updateIndex.2
      pure (.symref (cString target.1), target.2)
    else if valType = 0 then pure (.deletion, updateIndex.2)
    else .error .abort
  return ({ refname := cString key, updateIndex := updateIndex.1, value := value.1 }, value.2)

/-- The name or the email of a log entry: the one of the record before stays if it is the same. -/
def reuseString (old : Option CString) (scratch : List UInt8) : Option CString :=
  if old = some (cString scratch) then old else some (cString scratch)

def LogRecord.dropStrings (rec : LogRecord) (valType : UInt8) : LogUpdate :=
  if valType ≠ 1 ∧ rec.valueType = .update then { rec.update with name := none, email := none, message := none }
  else rec.update

/-- `reftable_log_record_decode` into the record that was read before. -/
def LogRecord.decode (rec : LogRecord) (key : List UInt8) (valType : UInt8) (id : HashId) (view : List UInt8) :
    Except ReftableError (LogRecord × List UInt8) :=
  if key.length ≤ 9 ∨ key.getD (key.length - 9) 0 ≠ 0 then .error .format
  else
    let refname := cString (key.take (key.length - 8))
    let updateIndex := UInt64.ofNat (2 ^ 64 - 1 - beValue (key.drop (key.length - 8)))
    let update := rec.dropStrings valType
    if valType = 0 then .ok (⟨refname, updateIndex, .deletion, update⟩, view)
    else if view.length < 2 * id.hashSize then .error .format
    else do
      let oldHash ← getHash id update.oldHash view
      let newHash ← getHash id update.newHash oldHash.2
      let name ← decodeString newHash.2
      let email ← decodeString name.2
      let time ← getInt email.2
      let tz ← getBytes 2 time.2
      let message ← decodeString tz.2
      return (⟨refname, updateIndex, .update,
        { oldHash := oldHash.1
          newHash := newHash.1
          name := reuseString update.name name.1
          email := reuseString update.email email.1
          time := time.1
          tzOffset := (getBe16 tz.1 0).getD 0
          message := some (cString message.1) }⟩, message.2)

def decodeOffsets (last : UInt64) : Nat → List UInt8 → Except ReftableError (List UInt64 × List UInt8)
  | 0, view => .ok ([], view)
  | count + 1, view => do
    let delta ← getInt view
    let offsets ← decodeOffsets (delta.1 + last) count delta.2
    return ((delta.1 + last) :: offsets.1, offsets.2)

/-- The number of offsets: the value type, or where that is 0 a number of its own. -/
def decodeCount (valType : UInt8) (view : List UInt8) : Except ReftableError (UInt64 × List UInt8) :=
  if valType = 0 then getInt view else .ok (valType.toUInt64, view)

/-- `reftable_obj_record_decode`. No memory can be had for a prefix of no bytes. -/
def ObjRecord.decode (key : List UInt8) (valType : UInt8) (view : List UInt8) :
    Except ReftableError (ObjRecord × List UInt8) :=
  if key.length = 0 then .error .outOfMemory
  else do
    let count ← decodeCount valType view
    match count.1.toNat with
    | 0 => return (⟨key, []⟩, count.2)
    | n + 1 =>
      if 2 ^ 61 ≤ n + 1 then .error .outOfMemory
      else
        let first ← getInt count.2
        let offsets ← decodeOffsets first.1 n first.2
        return (⟨key, first.1 :: offsets.1⟩, offsets.2)

def IndexRecord.decode (key view : List UInt8) : Except ReftableError (IndexRecord × List UInt8) := do
  let offset ← getInt view
  return (⟨offset.1, key⟩, offset.2)

def Record.decode (rec : Record) (key : List UInt8) (valType : UInt8) (id : HashId) (view : List UInt8) :
    Except ReftableError (Record × List UInt8) :=
  match rec with
  | .ref _ => (RefRecord.decode key valType id view).map fun r => (.ref r.1, r.2)
  | .log rec => (rec.decode key valType id view).map fun r => (.log r.1, r.2)
  | .obj _ => (ObjRecord.decode key valType view).map fun r => (.obj r.1, r.2)
  | .index _ => (IndexRecord.decode key view).map fun r => (.index r.1, r.2)

end GitCore.Reftable.Structs

/-!
# What is encoded is decoded

The decoders read every key and every record back from what the encoders write, whatever follows and
whatever record was read before.
-/

namespace GitCore.Reftable.Structs

def Writes (put : Put) (bytes : List UInt8) : Prop :=
  ∀ room, put room = if room < bytes.length then .error .entryTooBig else .ok bytes

lemma Writes.eq_of_ok {put : Put} {bytes bytes' : List UInt8} {room : Nat} (h : Writes put bytes)
    (hok : put room = .ok bytes') : bytes' = bytes ∧ bytes.length ≤ room := by
  rw [h room] at hok
  split at hok
  · cases hok
  · next hroom => exact ⟨(Except.ok.inj hok).symm, not_lt.mp hroom⟩

lemma putBytes_writes (bytes : List UInt8) : Writes (putBytes bytes) bytes :=
  fun _ => rfl

lemma putInt_writes (value : UInt64) : Writes (putInt value) (encodeVarint value.toNat) := by
  intro room
  rw [putInt, Varint.putVarInt_eq]
  by_cases hroom : room < (encodeVarint value.toNat).length
  · simp only [if_pos hroom]
  · simp only [if_neg hroom]

lemma Writes.andThen {first second : Put} {bytes bytes' : List UInt8} (h : Writes first bytes)
    (h' : Writes second bytes') : Writes (first.andThen second) (bytes ++ bytes') := by
  intro room
  rw [Put.andThen, h room]
  by_cases hfirst : room < bytes.length
  · rw [if_pos hfirst, if_pos (by rw [List.length_append]; omega)]
    rfl
  · rw [if_neg hfirst]
    change (second (room - bytes.length) >>= fun bytes' => pure (bytes ++ bytes')) = _
    rw [h' (room - bytes.length), List.length_append]
    by_cases hsecond : room - bytes.length < bytes'.length
    · rw [if_pos hsecond, if_pos (by omega)]
      rfl
    · rw [if_neg hsecond, if_neg (by omega)]
      rfl

def stringBytes (str : List UInt8) : List UInt8 :=
  encodeVarint (UInt64.ofNat str.length).toNat ++ str

lemma encodeString_writes (str : List UInt8) : Writes (encodeString str) (stringBytes str) :=
  (putInt_writes _).andThen (putBytes_writes str)

def keyBytes (prevKey key : List UInt8) (extra : UInt8) : List UInt8 :=
  encodeVarint (UInt64.ofNat (commonPrefixSize prevKey key)).toNat ++
    (encodeVarint ((UInt64.ofNat (key.length - commonPrefixSize prevKey key) <<< 3) ||| extra.toUInt64).toNat ++
      key.drop (commonPrefixSize prevKey key))

lemma reftableEncodeKey_eq (prevKey key : List UInt8) (extra : UInt8) (room : Nat) :
    reftableEncodeKey prevKey key extra room =
      if room < (keyBytes prevKey key extra).length then .error .entryTooBig
      else .ok (commonPrefixSize prevKey key = 0, keyBytes prevKey key extra) := by
  have hwrites : Writes _ (keyBytes prevKey key extra) :=
    (putInt_writes (UInt64.ofNat (commonPrefixSize prevKey key))).andThen
      ((putInt_writes _).andThen (putBytes_writes (key.drop (commonPrefixSize prevKey key))))
  rw [reftableEncodeKey, hwrites room]
  split <;> rfl

def RefValue.bytes (id : HashId) : RefValue → List UInt8
  | .symref target => stringBytes target.bytes
  | .val2 value target => value.take id ++ target.take id
  | .val1 value => value.take id
  | .deletion => []

def LogUpdate.bytes (id : HashId) (update : LogUpdate) : List UInt8 :=
  (update.oldHash.take id ++ update.newHash.take id) ++ (stringBytes (orEmpty update.name) ++
    (stringBytes (orEmpty update.email) ++ (encodeVarint update.time.toNat ++
      (putBe16 update.tzOffset ++ stringBytes (orEmpty update.message)))))

def offsetsBytes (last : UInt64) : List UInt64 → List UInt8
  | [] => []
  | offset :: offsets => encodeVarint (offset - last).toNat ++ offsetsBytes offset offsets

def ObjRecord.bytes (rec : ObjRecord) : List UInt8 :=
  (if rec.offsets.length = 0 ∨ 8 ≤ rec.offsets.length then encodeVarint (UInt64.ofNat rec.offsets.length).toNat else []) ++
    match rec.offsets with
    | [] => []
    | offset :: offsets => encodeVarint offset.toNat ++ offsetsBytes offset offsets

def Record.bytes (id : HashId) : Record → List UInt8
  | .ref rec => encodeVarint rec.updateIndex.toNat ++ rec.value.bytes id
  | .log rec => if rec.valueType = .deletion then [] else rec.update.bytes id
  | .obj rec => rec.bytes
  | .index rec => encodeVarint rec.offset.toNat

lemma encodeOffsets_writes (last : UInt64) (offsets : List UInt64) :
    Writes (encodeOffsets last offsets) (offsetsBytes last offsets) := by
  induction offsets generalizing last with
  | nil => exact putBytes_writes []
  | cons offset offsets ih => exact (putInt_writes _).andThen (ih offset)

lemma RefRecord.encode_writes (rec : RefRecord) (id : HashId) :
    Writes (rec.encode id) (encodeVarint rec.updateIndex.toNat ++ rec.value.bytes id) := by
  refine (putInt_writes _).andThen ?_
  cases rec.value with
  | deletion => exact putBytes_writes []
  | val1 value => exact putBytes_writes _
  | val2 value target => exact putBytes_writes _
  | symref target => exact encodeString_writes _

lemma LogRecord.encode_writes (rec : LogRecord) (id : HashId) :
    Writes (rec.encode id) (if rec.valueType = .deletion then [] else rec.update.bytes id) := by
  rw [LogRecord.encode]
  split
  · exact putBytes_writes []
  · exact (putBytes_writes _).andThen ((encodeString_writes _).andThen ((encodeString_writes _).andThen
      ((putInt_writes _).andThen ((putBytes_writes _).andThen (encodeString_writes _)))))

lemma ObjRecord.encode_writes (rec : ObjRecord) : Writes rec.encode rec.bytes := by
  rw [ObjRecord.encode, ObjRecord.bytes]
  refine Writes.andThen ?_ ?_
  · split
    · exact putInt_writes _
    · exact putBytes_writes []
  · cases rec.offsets with
    | nil => exact putBytes_writes []
    | cons offset offsets => exact (putInt_writes _).andThen (encodeOffsets_writes _ _)

theorem Record.encode_writes (rec : Record) (id : HashId) : Writes (rec.encode id) (rec.bytes id) := by
  cases rec with
  | ref rec => exact rec.encode_writes id
  | log rec => exact rec.encode_writes id
  | obj rec => exact rec.encode_writes
  | index rec => exact putInt_writes _

lemma getInt_varint (value : UInt64) (rest : List UInt8) :
    getInt (encodeVarint value.toNat ++ rest) = .ok (value, rest) := by
  have h := Varint.codec_reftable.recovers value rest
  rw [Varint.consumed, Option.some_inj, Option.map_eq_some_iff] at h
  obtain ⟨r, hr, heq⟩ := h
  rw [getInt, hr]
  exact congrArg Except.ok heq

lemma getBytes_append (bytes rest : List UInt8) : getBytes bytes.length (bytes ++ rest) = .ok (bytes, rest) := by
  rw [getBytes, if_neg (by rw [List.length_append]; omega), List.take_left, List.drop_left]

lemma decodeString_string {str : List UInt8} (h : str.length < 2 ^ 64) (rest : List UInt8) :
    decodeString (stringBytes str ++ rest) = .ok (str, rest) := by
  rw [stringBytes, List.append_assoc, decodeString, getInt_varint]
  change getBytes (UInt64.ofNat str.length).toNat (str ++ rest) = _
  rw [UInt64.toNat_ofNat', Nat.mod_eq_of_lt h, getBytes_append]

lemma getHash_take (id : HashId) (old hash : HashArray) (rest : List UInt8) :
    ∃ hash', getHash id old (hash.take id ++ rest) = .ok (hash', rest) ∧ hash'.take id = hash.take id := by
  have hlen := hash.length_take id
  have htake : (hash.take id ++ rest).take id.hashSize = hash.take id := by
    rw [← hlen, List.take_left]
  refine ⟨old.copy ((hash.take id ++ rest).take id.hashSize)
    ((List.length_take_le id.hashSize _).trans id.hashSize_le), ?_, ?_⟩
  · rw [getHash, if_neg (by rw [List.length_append]; omega)]
    have hdrop : (hash.take id ++ rest).drop id.hashSize = rest := by
      rw [← hlen, List.drop_left]
    rw [hdrop]
  · rw [HashArray.take, HashArray.copy]
    dsimp only
    rw [htake, List.take_append_of_le_length (le_of_eq hlen.symm), List.take_of_length_le (le_of_eq hlen)]

lemma cString_bytes (s : CString) : cString s.bytes = s := by
  apply CString.bytes_inj.mp
  refine List.takeWhile_eq_self_iff.mpr fun b hb => ?_
  rw [decide_eq_true_eq]
  rintro rfl
  exact s.no_nul hb

lemma cString_append_nul (s : CString) (tail : List UInt8) : cString (s.bytes ++ 0 :: tail) = s := by
  apply CString.bytes_inj.mp
  have hself : s.bytes.takeWhile (· ≠ 0) = s.bytes := congrArg CString.bytes (cString_bytes s)
  change (s.bytes ++ 0 :: tail).takeWhile (· ≠ 0) = s.bytes
  rw [List.takeWhile_append_of_pos]
  · simp
  · exact List.takeWhile_eq_self_iff.mp hself

lemma cString_orEmpty (s : Option CString) : (cString (orEmpty s)).bytes = orEmpty s := by
  cases s with
  | none => rfl
  | some s => exact congrArg CString.bytes (cString_bytes s)

lemma reuseString_orEmpty (old s : Option CString) : orEmpty (reuseString old (orEmpty s)) = orEmpty s := by
  rw [reuseString]
  split
  · next h =>
    rw [h]
    exact cString_orEmpty s
  · exact cString_orEmpty s

lemma commonPrefixSize_le_left (a b : List UInt8) : commonPrefixSize a b ≤ a.length := by
  induction a generalizing b with
  | nil => exact Nat.zero_le _
  | cons x a ih =>
    cases b with
    | nil => exact Nat.zero_le _
    | cons y b =>
      rw [commonPrefixSize]
      split
      · exact Nat.succ_le_succ (ih b)
      · exact Nat.zero_le _

lemma commonPrefixSize_le_right (a b : List UInt8) : commonPrefixSize a b ≤ b.length := by
  induction a generalizing b with
  | nil => exact Nat.zero_le _
  | cons x a ih =>
    cases b with
    | nil => exact Nat.zero_le _
    | cons y b =>
      rw [commonPrefixSize]
      split
      · exact Nat.succ_le_succ (ih b)
      · exact Nat.zero_le _

lemma take_commonPrefixSize (a b : List UInt8) : a.take (commonPrefixSize a b) = b.take (commonPrefixSize a b) := by
  induction a generalizing b with
  | nil => rfl
  | cons x a ih =>
    cases b with
    | nil => rfl
    | cons y b =>
      rw [commonPrefixSize]
      split
      · next h => rw [List.take_succ_cons, List.take_succ_cons, ih b, h]
      · rfl

lemma suffix_extra {n : Nat} (hn : n < 2 ^ 61) {extra : UInt8} (hextra : extra.toNat < 8) :
    (((UInt64.ofNat n <<< 3) ||| extra.toUInt64) >>> 3).toNat = n ∧
      (((UInt64.ofNat n <<< 3) ||| extra.toUInt64) &&& 7).toUInt8 = extra := by
  have hshift : (UInt64.ofNat n <<< 3).toNat = 2 ^ 3 * n := by
    rw [UInt64.toNat_shiftLeft, UInt64.toNat_ofNat', show (3 : UInt64).toNat % 64 = 3 by rfl, Nat.shiftLeft_eq]
    omega
  have hor : ((UInt64.ofNat n <<< 3) ||| extra.toUInt64).toNat = 2 ^ 3 * n + extra.toNat := by
    rw [UInt64.toNat_or, hshift, UInt8.toNat_toUInt64, Nat.two_pow_add_eq_or_of_lt hextra]
  constructor
  · rw [UInt64.toNat_shiftRight, hor, show (3 : UInt64).toNat % 64 = 3 by rfl, Nat.shiftRight_eq_div_pow]
    omega
  · apply UInt8.toNat_inj.mp
    have hmod := Nat.and_two_pow_sub_one_eq_mod (2 ^ 3 * n + extra.toNat) 3
    rw [UInt64.toNat_toUInt8, UInt64.toNat_and, hor, show (7 : UInt64).toNat = 2 ^ 3 - 1 by rfl, hmod]
    omega

lemma reftableDecodeKeylen_keyBytes {prevKey key : List UInt8} {extra : UInt8} (hextra : extra.toNat < 8)
    (hprev : commonPrefixSize prevKey key < 2 ^ 64) (hkey : key.length - commonPrefixSize prevKey key < 2 ^ 61)
    (rest : List UInt8) :
    reftableDecodeKeylen (keyBytes prevKey key extra ++ rest) =
      .ok ((commonPrefixSize prevKey key, key.length - commonPrefixSize prevKey key, extra),
        key.drop (commonPrefixSize prevKey key) ++ rest) := by
  rw [keyBytes, List.append_assoc, List.append_assoc, reftableDecodeKeylen, getInt_varint]
  simp only [bind, Except.bind]
  rw [getInt_varint]
  simp only [pure, Except.pure, Except.ok.injEq, Prod.mk.injEq, and_true]
  exact ⟨by rw [UInt64.toNat_ofNat', Nat.mod_eq_of_lt hprev], suffix_extra hkey hextra⟩

lemma reftableDecodeKey_keyBytes {prevKey key lastKey : List UInt8} {extra : UInt8} (hextra : extra.toNat < 8)
    (hprev : commonPrefixSize prevKey key < 2 ^ 64) (hkey : key.length - commonPrefixSize prevKey key < 2 ^ 61)
    (hlast : lastKey.take (commonPrefixSize prevKey key) = key.take (commonPrefixSize prevKey key))
    (rest : List UInt8) :
    reftableDecodeKey lastKey (keyBytes prevKey key extra ++ rest) = .ok ((key, extra), rest) := by
  have hle := commonPrefixSize_le_right prevKey key
  rw [reftableDecodeKey, reftableDecodeKeylen_keyBytes hextra hprev hkey]
  generalize commonPrefixSize prevKey key = n at *
  have hlastlen : n ≤ lastKey.length := by
    have hlen := congrArg List.length hlast
    rw [List.length_take, List.length_take] at hlen
    omega
  have hdrop : (key.drop n).length = key.length - n := List.length_drop
  simp only [bind, Except.bind]
  rw [if_neg (by rw [List.length_append]; omega)]
  simp only [pure, Except.pure, Except.ok.injEq, Prod.mk.injEq, and_true]
  rw [← hdrop, List.take_left, List.drop_left, hlast, List.take_append_drop]
  exact ⟨rfl, rfl⟩

lemma length_le_stringBytes (str : List UInt8) : str.length ≤ (stringBytes str).length := by
  rw [stringBytes, List.length_append]
  exact Nat.le_add_left _ _

lemma RefRecord.decode_bytes (rec : RefRecord) (id : HashId) (rest : List UInt8)
    (hlen : ((Record.ref rec).bytes id).length < 2 ^ 64) :
    ∃ rec', RefRecord.decode rec.refname.bytes rec.value.valType id ((Record.ref rec).bytes id ++ rest) = .ok (rec', rest) ∧
      rec.equal rec' id := by
  rw [Record.bytes] at hlen ⊢
  rw [List.append_assoc, RefRecord.decode, getInt_varint]
  simp only [bind, Except.bind]
  obtain ⟨refname, updateIndex, value⟩ := rec
  cases value with
  | deletion => exact ⟨⟨cString refname.bytes, updateIndex, .deletion⟩, rfl, (cString_bytes refname).symm, rfl, trivial⟩
  | val1 value =>
    obtain ⟨value', hget, htake⟩ := getHash_take id .zero value rest
    refine ⟨⟨cString refname.bytes, updateIndex, .val1 value'⟩, ?_, (cString_bytes refname).symm, rfl, htake.symm⟩
    simp [RefValue.valType, RefValue.bytes, hget, pure, Except.pure]
  | val2 value target =>
    obtain ⟨value', hget, htake⟩ := getHash_take id .zero value (target.take id ++ rest)
    obtain ⟨target', hget', htake'⟩ := getHash_take id .zero target rest
    refine ⟨⟨cString refname.bytes, updateIndex, .val2 value' target'⟩, ?_, (cString_bytes refname).symm, rfl,
      htake.symm, htake'.symm⟩
    have hroom : ¬(RefValue.bytes id (.val2 value target) ++ rest).length < 2 * id.hashSize := by
      simp only [RefValue.bytes, List.length_append, HashArray.length_take]
      omega
    rw [show RefValue.valType (.val2 value target) = 2 by rfl, if_neg (by decide), if_pos rfl, if_neg hroom,
      RefValue.bytes, List.append_assoc, hget]
    simp only [hget', pure, Except.pure]
  | symref target =>
    have hshort : target.bytes.length < 2 ^ 64 := by
      have hle := length_le_stringBytes target.bytes
      rw [List.length_append, RefValue.bytes] at hlen
      omega
    refine ⟨⟨cString refname.bytes, updateIndex, .symref target⟩, ?_, (cString_bytes refname).symm, rfl, rfl⟩
    rw [show RefValue.valType (.symref target) = 3 by rfl, if_neg (by decide), if_neg (by decide), if_pos rfl,
      RefValue.bytes, decodeString_string hshort]
    simp only [pure, Except.pure, cString_bytes]

lemma LogRecord.key_parts (rec : LogRecord) :
    rec.key.length = rec.refname.bytes.length + 9 ∧ rec.key.getD (rec.key.length - 9) 0 = 0 ∧
      cString (rec.key.take (rec.key.length - 8)) = rec.refname ∧
      UInt64.ofNat (2 ^ 64 - 1 - beValue (rec.key.drop (rec.key.length - 8))) = rec.updateIndex := by
  have hlen : rec.key.length = rec.refname.bytes.length + 9 := by
    rw [LogRecord.key, List.length_append, List.length_cons, length_beBytes]
  have hkey : rec.key = rec.refname.bytes ++ [0] ++ beBytes 8 (2 ^ 64 - 1 - rec.updateIndex.toNat) := by
    rw [LogRecord.key, List.append_assoc, List.singleton_append]
  have hlen' : (rec.refname.bytes ++ [0]).length = rec.key.length - 8 := by
    rw [hlen, List.length_append, List.length_singleton]
    omega
  refine ⟨hlen, ?_, ?_, ?_⟩
  · rw [hlen, Nat.add_sub_cancel, LogRecord.key, List.getD_append_right _ _ _ _ (le_refl _), Nat.sub_self]
    rfl
  · rw [← hlen', hkey, List.take_left]
    exact cString_append_nul rec.refname []
  · have hindex := rec.updateIndex.toNat_lt
    rw [← hlen', hkey, List.drop_left, beValue_beBytes, Nat.mod_eq_of_lt (by omega)]
    apply UInt64.toNat_inj.mp
    rw [UInt64.toNat_ofNat']
    omega

lemma getBe16_putBe16 (v : UInt16) : (getBe16 (putBe16 v) 0).getD 0 = v := by
  have h := getBe16_put v []
  rw [List.append_nil] at h
  rw [h, Option.getD_some]

lemma LogRecord.decode_bytes (rec old : LogRecord) (id : HashId) (rest : List UInt8) (hname : rec.refname.bytes ≠ [])
    (hlen : ((Record.log rec).bytes id).length < 2 ^ 64) :
    ∃ rec', old.decode rec.key (Record.log rec).valType id ((Record.log rec).bytes id ++ rest) = .ok (rec', rest) ∧
      rec.equal rec' id := by
  obtain ⟨hkeylen, hnul, hrefname, hindex⟩ := rec.key_parts
  have hpos := List.length_pos_iff.mpr hname
  have hkey : ¬(rec.key.length ≤ 9 ∨ rec.key.getD (rec.key.length - 9) 0 ≠ 0) := by
    rw [hkeylen, not_or]
    rw [hkeylen] at hnul
    exact ⟨by omega, not_not.mpr hnul⟩
  rw [LogRecord.decode, if_neg hkey]
  dsimp only
  rw [hrefname, hindex, Record.bytes, Record.valType]
  rw [Record.bytes] at hlen
  cases htype : rec.valueType with
  | deletion =>
    simp only [if_true, List.nil_append]
    refine ⟨_, rfl, rfl, rfl, htype, fun h => ?_⟩
    rw [htype] at h
    cases h
  | update =>
    rw [htype] at hlen
    simp only [reduceCtorEq, if_false] at hlen ⊢
    rw [if_neg (by decide : ¬(1 : UInt8) = 0)]
    generalize old.dropStrings 1 = update
    have hroom : ¬(rec.update.bytes id ++ rest).length < 2 * id.hashSize := by
      simp only [LogUpdate.bytes, List.length_append, HashArray.length_take]
      omega
    rw [if_neg hroom]
    have hshort : (orEmpty rec.update.name).length < 2 ^ 64 ∧ (orEmpty rec.update.email).length < 2 ^ 64 ∧
        (orEmpty rec.update.message).length < 2 ^ 64 := by
      have h₁ := length_le_stringBytes (orEmpty rec.update.name)
      have h₂ := length_le_stringBytes (orEmpty rec.update.email)
      have h₃ := length_le_stringBytes (orEmpty rec.update.message)
      simp only [LogUpdate.bytes, List.length_append] at hlen
      omega
    simp only [LogUpdate.bytes, List.append_assoc]
    obtain ⟨oldHash, hold, htake⟩ := getHash_take id update.oldHash rec.update.oldHash (rec.update.newHash.take id ++
      (stringBytes (orEmpty rec.update.name) ++ (stringBytes (orEmpty rec.update.email) ++
        (encodeVarint rec.update.time.toNat ++ (putBe16 rec.update.tzOffset ++
          (stringBytes (orEmpty rec.update.message) ++ rest))))))
    obtain ⟨newHash, hnew, htake'⟩ := getHash_take id update.newHash rec.update.newHash
      (stringBytes (orEmpty rec.update.name) ++ (stringBytes (orEmpty rec.update.email) ++
        (encodeVarint rec.update.time.toNat ++ (putBe16 rec.update.tzOffset ++
          (stringBytes (orEmpty rec.update.message) ++ rest)))))
    have htz : ∀ tail, getBytes 2 (putBe16 rec.update.tzOffset ++ tail) = .ok (putBe16 rec.update.tzOffset, tail) :=
      fun tail => getBytes_append (putBe16 rec.update.tzOffset) tail
    rw [hold]
    simp only [bind, Except.bind, hnew, decodeString_string hshort.1, decodeString_string hshort.2.1,
      decodeString_string hshort.2.2, getInt_varint, htz, pure, Except.pure, getBe16_putBe16]
    refine ⟨_, rfl, rfl, rfl, htype, fun _ => ⟨?_, rfl, rfl, ?_, ?_, htake.symm, htake'.symm⟩⟩
    · exact (reuseString_orEmpty _ _).symm
    · exact (reuseString_orEmpty _ _).symm
    · exact (cString_orEmpty _).symm

lemma decodeOffsets_bytes (last : UInt64) (offsets : List UInt64) (rest : List UInt8) :
    decodeOffsets last offsets.length (offsetsBytes last offsets ++ rest) = .ok (offsets, rest) := by
  induction offsets generalizing last with
  | nil => rfl
  | cons offset offsets ih =>
    have hadd : offset - last + last = offset := by
      rw [UInt64.sub_add_cancel]
    rw [offsetsBytes, List.append_assoc, List.length_cons, decodeOffsets, getInt_varint]
    simp only [bind, Except.bind, hadd]
    rw [ih offset]
    rfl

lemma encodeVarint_ne_nil (value : Nat) : encodeVarint value ≠ [] := by
  intro h
  have hterm := terminated_encodeVarint value
  rw [h] at hterm
  exact hterm

lemma length_le_offsetsBytes (last : UInt64) (offsets : List UInt64) :
    offsets.length ≤ (offsetsBytes last offsets).length := by
  induction offsets generalizing last with
  | nil => exact le_refl 0
  | cons offset offsets ih =>
    have hpos := List.length_pos_iff.mpr (encodeVarint_ne_nil (offset - last).toNat)
    have hrest := ih offset
    rw [offsetsBytes, List.length_append, List.length_cons]
    omega

lemma length_le_objBytes (rec : ObjRecord) : rec.offsets.length ≤ rec.bytes.length := by
  obtain ⟨hashPrefix, offsets⟩ := rec
  rw [ObjRecord.bytes]
  cases offsets with
  | nil => exact Nat.zero_le _
  | cons offset offsets =>
    have hpos := List.length_pos_iff.mpr (encodeVarint_ne_nil offset.toNat)
    have hrest := length_le_offsetsBytes offset offsets
    simp only [List.length_append, List.length_cons]
    omega

lemma decodeCount_bytes (rec : ObjRecord) (hlen : rec.offsets.length < 2 ^ 64) (rest : List UInt8) :
    decodeCount rec.valType ((if rec.offsets.length = 0 ∨ 8 ≤ rec.offsets.length
      then encodeVarint (UInt64.ofNat rec.offsets.length).toNat else []) ++ rest) =
      .ok (UInt64.ofNat rec.offsets.length, rest) := by
  rw [decodeCount, ObjRecord.valType]
  by_cases hcount : rec.offsets.length = 0 ∨ 8 ≤ rec.offsets.length
  · have hout : ¬(0 < rec.offsets.length ∧ rec.offsets.length < 8) := by omega
    rw [if_pos hcount, if_neg hout, if_pos rfl, getInt_varint]
  · have hin : 0 < rec.offsets.length ∧ rec.offsets.length < 8 := by omega
    have hval : (UInt8.ofNat rec.offsets.length).toNat = rec.offsets.length := by
      rw [UInt8.toNat_ofNat']
      omega
    have hne : UInt8.ofNat rec.offsets.length ≠ 0 := by
      intro hzero
      rw [hzero] at hval
      exact hcount (.inl hval.symm)
    have hcast : (UInt8.ofNat rec.offsets.length).toUInt64 = UInt64.ofNat rec.offsets.length := by
      apply UInt64.toNat_inj.mp
      rw [UInt8.toNat_toUInt64, hval, UInt64.toNat_ofNat', Nat.mod_eq_of_lt hlen]
    rw [if_neg hcount, if_pos hin, if_neg hne, List.nil_append, hcast]

lemma ObjRecord.decode_bytes (rec : ObjRecord) (rest : List UInt8) (hfront : rec.hashPrefix ≠ [])
    (hlen : rec.bytes.length < 2 ^ 61) : ObjRecord.decode rec.hashPrefix rec.valType (rec.bytes ++ rest) = .ok (rec, rest) := by
  have hcount := (length_le_objBytes rec).trans_lt hlen
  rw [ObjRecord.decode, if_neg (List.length_pos_iff.mpr hfront).ne', ObjRecord.bytes, List.append_assoc,
    decodeCount_bytes rec (hcount.trans (by decide))]
  have hnat : (UInt64.ofNat rec.offsets.length).toNat = rec.offsets.length := by
    rw [UInt64.toNat_ofNat', Nat.mod_eq_of_lt (hcount.trans (by decide))]
  simp only [bind, Except.bind]
  rw [hnat]
  obtain ⟨hashPrefix, offsets⟩ := rec
  cases offsets with
  | nil => rfl
  | cons offset offsets =>
    dsimp only at hcount ⊢
    rw [List.length_cons] at hcount ⊢
    dsimp only
    rw [if_neg (not_le.mpr hcount), List.append_assoc, getInt_varint]
    dsimp only
    rw [decodeOffsets_bytes]
    rfl

/-- The name of the ref of a log record and the prefix of an object record are not empty. -/
def Record.Named : Record → Prop
  | .log rec => rec.refname.bytes ≠ []
  | .obj rec => rec.hashPrefix ≠ []
  | _ => True

lemma Record.decode_bytes (rec old : Record) (id : HashId) (rest : List UInt8) (htype : old.type = rec.type)
    (hnamed : rec.Named) (hlen : (rec.bytes id).length < 2 ^ 61) :
    ∃ rec', old.decode rec.key rec.valType id (rec.bytes id ++ rest) = .ok (rec', rest) ∧ rec.equal rec' id := by
  cases rec with
  | ref rec =>
    cases old <;> simp only [Record.type, reduceCtorEq] at htype
    obtain ⟨rec', hdecode, hequal⟩ := rec.decode_bytes id rest (hlen.trans (by decide))
    refine ⟨.ref rec', ?_, hequal⟩
    rw [Record.decode, Record.key, Record.valType, hdecode]
    rfl
  | log rec =>
    cases old <;> simp only [Record.type, reduceCtorEq] at htype
    case log old =>
      obtain ⟨rec', hdecode, hequal⟩ := rec.decode_bytes old id rest hnamed (hlen.trans (by decide))
      refine ⟨.log rec', ?_, hequal⟩
      rw [Record.decode, Record.key, hdecode]
      rfl
  | obj rec =>
    cases old <;> simp only [Record.type, reduceCtorEq] at htype
    refine ⟨.obj rec, ?_, rfl, rfl⟩
    rw [Record.decode, Record.key, Record.valType, Record.bytes, rec.decode_bytes rest hnamed hlen]
    rfl
  | index rec =>
    cases old <;> simp only [Record.type, reduceCtorEq] at htype
    refine ⟨.index rec, ?_, rfl, rfl⟩
    rw [Record.decode, Record.key, Record.bytes, IndexRecord.decode, getInt_varint]
    rfl

def unnamedEntry : Record :=
  .log ⟨⟨[], nul_notMem_nil⟩, 1, .deletion, ⟨.zero, .zero, none, none, 0, 0, none⟩⟩

end GitCore.Reftable.Structs
