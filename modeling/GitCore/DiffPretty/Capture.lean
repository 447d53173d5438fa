import Mathlib.Data.List.Basic
import GitCore.Lib.Utf8

/-!
# The reader of captured metadata

`incomplete_utf8_suffix` and `diff_pretty_capture_reader` of `diff-pretty.c`. Reads and copies outside a buffer fail.
What `read` returns is up to the kernel, and what a push returns to the native session.
-/

namespace GitCore.DiffPretty

/-- The loop of `incomplete_utf8_suffix`, down from `start`. -/
def suffixStart (data : List UInt8) : Nat → Option Nat
  | 0 => some 0
  | start + 1 => do
    let c ← data[start + 1]?
    if c &&& 0xc0 = 0x80 then suffixStart data start else return start + 1

def incompleteUtf8Suffix (data : List UInt8) : Option Nat :=
  if data.length = 0 then some 0
  else do
    let start ← suffixStart data (data.length - 1)
    let first ← data[start]?
    let suffix := fun expected => if data.length - start < expected then data.length - start else 0
    if first < 0x80 then return 0
    else if first &&& 0xe0 = 0xc0 then return suffix 2
    else if first &&& 0xf0 = 0xe0 then return suffix 3
    else if first &&& 0xf8 = 0xf0 then return suffix 4
    else return 0

/-- `sizeof(buffer)` -/
def bufferSize : Nat := 8192 + 3

/-- `sizeof(pending)` -/
def pendingSize : Nat := 3

def copyTo (size : Nat) (data : List UInt8) : Option (List UInt8) := if data.length ≤ size then some data else none

/-- What a push returns: `DIFF_PRETTY_STATUS_QUIT`, a negative status, or another one. -/
inductive PushStatus
  | rendered
  | quit
  | failed
  deriving DecidableEq

/-- The world around the reader: how many bytes a call of `read` can deliver, less one, and how the session answers to
a chunk after the chunks before it. -/
structure CaptureWorld where
  available : Nat → Nat
  push : List (List UInt8) → List UInt8 → PushStatus

def CaptureWorld.read (world : CaptureWorld) (call : Nat) (stream : List UInt8) (size : Nat) : List UInt8 :=
  stream.take (min (world.available call + 1) size)

/-- What a call of `read` leads to: the bytes that are handed over, and those that are held back. -/
structure CaptureRound where
  chunk : List UInt8
  pending : List UInt8

/-- A round of the loop, up to the call of `diff_pretty_emit_patch`. -/
def captureRound (pending data : List UInt8) : Option CaptureRound := do
  let buffer ← copyTo bufferSize pending
  let buffer ← copyTo bufferSize (buffer ++ data)
  let suffixLen ← incompleteUtf8Suffix buffer
  if buffer.length < suffixLen then none
  else
    let pending ← copyTo pendingSize (buffer.drop (buffer.length - suffixLen))
    return ⟨buffer.take (buffer.length - suffixLen), pending⟩

/-- What the reader has done: the chunks that it has handed over, in order, and what it held back after each call of
`read`. -/
structure Captured where
  chunks : List (List UInt8)
  held : List (List UInt8)

/-- The loop of `diff_pretty_capture_reader`, with the chunks so far, for at most so many calls of `read`. -/
def captureLoop (world : CaptureWorld) : Nat → Nat → List (List UInt8) → List UInt8 → List UInt8 → Option Captured
  | 0, _, _, _, _ => none
  | fuel + 1, call, chunks, pending, stream =>
    if stream = [] then some ⟨if pending = [] then chunks else chunks ++ [pending], []⟩
    else do
      let data := world.read call stream (bufferSize - pending.length)
      let round ← captureRound pending data
      if round.chunk = [] then
        let rest ← captureLoop world fuel (call + 1) chunks round.pending (stream.drop data.length)
        return { rest with held := round.pending :: rest.held }
      else if world.push chunks round.chunk ≠ .rendered then
        return ⟨chunks ++ [round.chunk], [round.pending]⟩
      else
        let rest ←
          captureLoop world fuel (call + 1) (chunks ++ [round.chunk]) round.pending (stream.drop data.length)
        return { rest with held := round.pending :: rest.held }

def diffPrettyCaptureReader (world : CaptureWorld) (fuel : Nat) (stream : List UInt8) : Option Captured :=
  captureLoop world fuel 0 [] [] stream

end GitCore.DiffPretty

/-!
# The chunks of captured metadata

A round hands over what was read up to the last character that is not complete, so the chunks of a valid text are
valid texts.
-/

namespace GitCore.DiffPretty

lemma suffixStart_le {data : List UInt8} {start : Nat} (h : start < data.length) :
    ∃ i ≤ start, suffixStart data start = some i := by
  induction start with
  | zero => exact ⟨0, le_rfl, rfl⟩
  | succ start ih =>
    rw [suffixStart, List.getElem?_eq_getElem h]
    dsimp only [Option.bind_eq_bind, Option.bind_some]
    split_ifs
    · obtain ⟨i, hi, hstart⟩ := ih (by omega)
      exact ⟨i, by omega, hstart⟩
    · exact ⟨start + 1, le_rfl, rfl⟩

lemma incompleteUtf8Suffix_le (data : List UInt8) :
    ∃ suffix ≤ 3, suffix ≤ data.length ∧ incompleteUtf8Suffix data = some suffix := by
  rw [incompleteUtf8Suffix]
  split_ifs with hnil
  · exact ⟨0, Nat.zero_le _, Nat.zero_le _, rfl⟩
  obtain ⟨start, hstart, heq⟩ := @suffixStart_le data (data.length - 1) (by omega)
  rw [heq]
  dsimp only [Option.bind_eq_bind, Option.bind_some]
  rw [List.getElem?_eq_getElem (by omega : start < data.length)]
  dsimp only [Option.bind_some]
  split_ifs <;> exact ⟨_, by omega, by omega, rfl⟩

lemma suffixStart_lead {front tail : List UInt8} {lead : UInt8} (hlead : isContinuation lead = false)
    (htail : ∀ b ∈ tail, isContinuation b = true) {k : Nat} (hk : k ≤ tail.length) :
    suffixStart (front ++ lead :: tail) (front.length + k) = some front.length := by
  induction k with
  | zero =>
    cases hfront : front.length with
    | zero => rfl
    | succ n =>
      have hget : (front ++ lead :: tail)[n + 1]? = some lead := by
        rw [List.getElem?_append_right hfront.le, hfront, Nat.sub_self]
        rfl
      rw [Nat.add_zero, suffixStart, hget]
      dsimp only [Option.bind_eq_bind, Option.bind_some]
      rw [if_neg (by simpa [isContinuation] using hlead)]
      rfl
  | succ k ih =>
    have hlt : k < tail.length := hk
    have hget : (front ++ lead :: tail)[front.length + k + 1]? = some tail[k] := by
      rw [List.getElem?_append_right (by omega), show front.length + k + 1 - front.length = k + 1 by omega,
        List.getElem?_cons_succ, List.getElem?_eq_getElem hlt]
    have hcontinuation := htail tail[k] (List.getElem_mem hlt)
    rw [← Nat.add_assoc, suffixStart, hget]
    dsimp only [Option.bind_eq_bind, Option.bind_some]
    rw [if_pos (by simpa [isContinuation] using hcontinuation)]
    exact ih hlt.le

lemma incompleteUtf8Suffix_lead {front tail : List UInt8} {lead : UInt8} (hlead : isContinuation lead = false)
    (htail : ∀ b ∈ tail, isContinuation b = true) :
    incompleteUtf8Suffix (front ++ lead :: tail) =
      some (if tail.length + 1 < leadLength lead then tail.length + 1 else 0) := by
  have hlength : (front ++ lead :: tail).length = front.length + tail.length + 1 := by
    rw [List.length_append, List.length_cons, Nat.add_assoc]
  have hget : (front ++ lead :: tail)[front.length]? = some lead := by
    rw [List.getElem?_append_right le_rfl, Nat.sub_self]
    rfl
  rw [incompleteUtf8Suffix, if_neg (by omega), hlength, Nat.add_sub_cancel, suffixStart_lead hlead htail le_rfl]
  dsimp only [Option.bind_eq_bind, Option.bind_some]
  rw [hget, show front.length + tail.length + 1 - front.length = tail.length + 1 by omega, leadLength]
  dsimp only [Option.bind_some]
  split_ifs <;> first | rfl | omega

lemma copyTo_of_le {size : Nat} {data : List UInt8} (h : data.length ≤ size) : copyTo size data = some data := if_pos h

lemma valid_cut {buffer rest : List UInt8} {suffix : Nat} (h : ValidUtf8 (buffer ++ rest))
    (hsuffix : incompleteUtf8Suffix buffer = some suffix) :
    ValidUtf8 (buffer.take (buffer.length - suffix)) ∧ ValidUtf8 (buffer.drop (buffer.length - suffix) ++ rest) := by
  obtain ⟨front, part, rfl, hfront, hpart, hcut⟩ := h.split
  by_cases hempty : part = []
  · -- the buffer ends behind a character
    have hzero : suffix = 0 := by
      rw [hempty, List.append_nil] at hsuffix
      by_cases hnil : front = []
      · rw [hnil] at hsuffix
        exact (Option.some.inj hsuffix).symm
      · obtain ⟨front', c, rfl, -⟩ := hfront.exists_last hnil
        obtain ⟨lead, tail, hc, hlead, htail, hlength⟩ := isEncoded_char c
        rw [hc, incompleteUtf8Suffix_lead hlead htail, hlength, if_neg (lt_irrefl _)] at hsuffix
        exact (Option.some.inj hsuffix).symm
    rw [hzero, Nat.sub_zero, List.take_length, List.drop_length, hempty, List.append_nil, List.nil_append]
    rw [hempty, List.nil_append] at hpart
    exact ⟨hfront, hpart⟩
  · obtain ⟨c, more, hc, hmore⟩ := hcut.resolve_left hempty
    obtain ⟨lead, tail, htext, hlead, htail, hlength⟩ := isEncoded_char c
    obtain ⟨first, begun, rfl⟩ := List.exists_cons_of_ne_nil hempty
    rw [hc, List.cons_append, List.cons.injEq] at htext
    obtain ⟨rfl, rfl⟩ := htext
    have hbegun : ∀ b ∈ begun, isContinuation b = true := fun b hb => htail b (List.mem_append_left more hb)
    have hlt : begun.length + 1 < leadLength first := by
      have := List.length_pos_iff.mpr hmore
      rw [hlength, List.length_append]
      omega
    rw [incompleteUtf8Suffix_lead hlead hbegun, if_pos hlt] at hsuffix
    obtain rfl := Option.some.inj hsuffix
    have hcut : (front ++ first :: begun).length - (begun.length + 1) = front.length := by
      rw [List.length_append, List.length_cons, Nat.add_sub_cancel]
    rw [hcut, List.take_left, List.drop_left]
    exact ⟨hfront, hpart⟩

lemma captureRound_spec {pending data : List UInt8} (hpending : pending.length ≤ 3)
    (hdata : data.length ≤ bufferSize - pending.length) :
    ∃ round, captureRound pending data = some round ∧ round.chunk ++ round.pending = pending ++ data ∧
      round.pending.length ≤ 3 ∧ ∀ rest, ValidUtf8 (pending ++ data ++ rest) →
        ValidUtf8 round.chunk ∧ ValidUtf8 (round.pending ++ rest) := by
  obtain ⟨suffix, hle, hlength, hsuffix⟩ := incompleteUtf8Suffix_le (pending ++ data)
  have hdrop : ((pending ++ data).drop ((pending ++ data).length - suffix)).length ≤ pendingSize := by
    rw [List.length_drop, pendingSize]
    omega
  refine ⟨⟨(pending ++ data).take ((pending ++ data).length - suffix),
    (pending ++ data).drop ((pending ++ data).length - suffix)⟩, ?_, List.take_append_drop _ _, hdrop, ?_⟩
  · rw [captureRound, copyTo_of_le (by rw [bufferSize]; omega)]
    dsimp only [Option.bind_eq_bind, Option.bind_some]
    rw [copyTo_of_le (by rw [List.length_append]; rw [bufferSize] at hdata ⊢; omega)]
    dsimp only [Option.bind_some]
    rw [hsuffix]
    dsimp only [Option.bind_some]
    rw [if_neg (not_lt.mpr hlength), copyTo_of_le hdrop]
    rfl
  · exact fun rest hvalid => valid_cut hvalid hsuffix

variable {world : CaptureWorld}

lemma length_read_le (call : Nat) (stream : List UInt8) (size : Nat) :
    (world.read call stream size).length ≤ size := by
  rw [CaptureWorld.read, List.length_take]
  omega

lemma read_append (call : Nat) (stream : List UInt8) (size : Nat) :
    world.read call stream size ++ stream.drop (world.read call stream size).length = stream :=
  List.prefix_iff_eq_append.mp (List.take_prefix _ stream)

lemma length_drop_read_lt (call : Nat) {stream : List UInt8} {size : Nat} (hne : stream ≠ []) (hsize : 0 < size) :
    (stream.drop (world.read call stream size).length).length < stream.length := by
  have hpos := List.length_pos_iff.mpr hne
  rw [List.length_drop, CaptureWorld.read, List.length_take]
  omega

lemma captureLoop_spec (hok : ∀ chunks chunk, world.push chunks chunk = .rendered) {fuel : Nat} (call : Nat)
    (chunks : List (List UInt8)) {pending stream : List UInt8} (hpending : pending.length ≤ 3)
    (hfuel : stream.length < fuel) :
    ∃ run more, captureLoop world fuel call chunks pending stream = some run ∧ run.chunks = chunks ++ more ∧
      more.flatten = pending ++ stream ∧ (∀ held ∈ run.held, held.length ≤ 3) ∧
      (ValidUtf8 (pending ++ stream) → ∀ chunk ∈ more, ValidUtf8 chunk) := by
  induction fuel generalizing call chunks pending stream with
  | zero => exact absurd hfuel (Nat.not_lt_zero _)
  | succ fuel ih =>
    by_cases hend : stream = []
    · subst hend
      by_cases hnone : pending = []
      · refine ⟨⟨chunks, []⟩, [], ?_, (List.append_nil chunks).symm, by simp [hnone], by simp, by simp⟩
        rw [captureLoop, if_pos rfl, if_pos hnone]
      · refine ⟨⟨chunks ++ [pending], []⟩, [pending], ?_, rfl, by simp, by simp, ?_⟩
        · rw [captureLoop, if_pos rfl, if_neg hnone]
        · rw [List.append_nil]
          exact fun hvalid => List.forall_mem_singleton.mpr hvalid
    · have hsize : 0 < bufferSize - pending.length := by
        rw [bufferSize]
        omega
      have hread := @read_append world call stream (bufferSize - pending.length)
      obtain ⟨round, hround, hbytes, hheld, hvalid⟩ :=
        captureRound_spec hpending (@length_read_le world call stream (bufferSize - pending.length))
      have hlt := @length_drop_read_lt world call stream (bufferSize - pending.length) hend hsize
      have hall : round.chunk ++ (round.pending ++
          stream.drop (world.read call stream (bufferSize - pending.length)).length) = pending ++ stream := by
        rw [← List.append_assoc, hbytes, List.append_assoc, hread]
      have hvalid' : ValidUtf8 (pending ++ stream) → ValidUtf8 round.chunk ∧ ValidUtf8 (round.pending ++
          stream.drop (world.read call stream (bufferSize - pending.length)).length) := fun h =>
        hvalid _ (by rwa [List.append_assoc, hread])
      rw [captureLoop, if_neg hend]
      dsimp only
      rw [hround]
      dsimp only [Option.bind_eq_bind, Option.bind_some]
      by_cases hempty : round.chunk = []
      · obtain ⟨run, more, hrun, hchunks, hflatten, hhelds, hpieces⟩ := ih (call + 1) chunks hheld (hlt.trans_le (Nat.le_of_lt_succ hfuel))
        refine ⟨⟨run.chunks, round.pending :: run.held⟩, more, ?_, hchunks, ?_, ?_, fun h => hpieces (hvalid' h).2⟩
        · rw [if_pos hempty, hrun]
          rfl
        · rw [hflatten, ← hall, hempty, List.nil_append]
        · exact List.forall_mem_cons.mpr ⟨hheld, hhelds⟩
      · obtain ⟨run, more, hrun, hchunks, hflatten, hhelds, hpieces⟩ :=
          ih (call + 1) (chunks ++ [round.chunk]) hheld (hlt.trans_le (Nat.le_of_lt_succ hfuel))
        refine ⟨⟨run.chunks, round.pending :: run.held⟩, round.chunk :: more, ?_, ?_, ?_, ?_, fun h => ?_⟩
        · rw [if_neg hempty, if_neg (not_not.mpr (hok chunks round.chunk)), hrun]
          rfl
        · rw [hchunks, List.append_assoc, List.singleton_append]
        · rw [List.flatten_cons, hflatten, hall]
        · exact List.forall_mem_cons.mpr ⟨hheld, hhelds⟩
        · exact List.forall_mem_cons.mpr ⟨(hvalid' h).1, hpieces (hvalid' h).2⟩

end GitCore.DiffPretty
