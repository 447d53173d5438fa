import GitCore.Lib.Loop
import GitCore.Notes.Tree
import GitCore.Sideband.Messages

/-!
# Packet lines

The packets of `pkt-line.c`, with their length in front in four hexadecimal digits, and what is sent in them over
sidebands. What one side writes is a list of bytes, from which the other side reads.
-/

namespace GitCore.Sideband

def largePacketMax : Nat := 65520

def largePacketDataMax : Nat := largePacketMax - 4

def hex (a : Nat) : UInt8 := (ascii "0123456789abcdef").getD (a &&& 15) 0

def setPacketHeader (size : Nat) : List UInt8 := [hex (size >>> 12), hex (size >>> 8), hex (size >>> 4), hex size]

def packetFlush : List UInt8 := ascii "0000"

/-- What `do_packet_write` writes, if the data is not too large. -/
def doPacketWrite (buf : List UInt8) : Option (List UInt8) :=
  if largePacketDataMax < buf.length then none else some (setPacketHeader (buf.length + 4) ++ buf)

/-- `packet_length`, without a value where it is negative. -/
def packetLength (lenbufHex : List UInt8) : Option Nat :=
  match lenbufHex.map Notes.hexval with
  | [some a, some b, some c, some d] => some (a.toNat <<< 12 ||| b.toNat <<< 8 ||| c.toNat <<< 4 ||| d.toNat)
  | _ => none

structure ReadOptions where
  gentleOnEof : Bool
  chompNewline : Bool
  dieOnErrPacket : Bool
  useSideband : Bool

inductive ReadError
  | hungUp
  | badLineLengthCharacter (linelen : List UInt8)
  | badLineLength (len : Nat)
  | remoteError (message : List UInt8)
  /-- `BUG("unhandled incomplete sideband")` -/
  | unhandledSideband

/-- The first `*pktlen` bytes of the buffer, none with the status `eof`, and what is left of the source. -/
structure PacketRead where
  status : PacketReadStatus
  buffer : List UInt8
  src : List UInt8

def getPacketData (src : List UInt8) (size : Nat) : Option (List UInt8 × List UInt8) :=
  if src.length < size then none else some (src.take size, src.drop size)

/-- `get_packet_data` behind the early end of its source. -/
def earlyEnd (options : ReadOptions) : Except ReadError PacketRead :=
  if options.gentleOnEof then .ok ⟨.eof, [], []⟩ else .error .hungUp

def chomp (options : ReadOptions) (buffer : List UInt8) : List UInt8 :=
  if options.chompNewline ∧ buffer.getLast? = some 10 then
    -- on the bands 2 and 3 the end of the line belongs to the message
    if options.useSideband ∧ buffer.head? ≠ some 1 then buffer else buffer.dropLast
  else buffer

/-- The part of `packet_read_with_status` behind the length of a packet with data. -/
def readBody (options : ReadOptions) (len : Nat) (src : List UInt8) : Except ReadError PacketRead :=
  match getPacketData src len with
  | none => earlyEnd options
  | some (buffer, src) =>
    let buffer := chomp options buffer
    if options.dieOnErrPacket ∧ ascii "ERR " <+: buffer then
      .error (.remoteError ((buffer.drop 4).takeWhile (· ≠ 0)))
    else .ok ⟨.normal, buffer, src⟩

def packetReadWithStatus (options : ReadOptions) (size : Nat) (src : List UInt8) : Except ReadError PacketRead :=
  match getPacketData src 4 with
  | none => earlyEnd options
  | some (linelen, src) =>
    match packetLength linelen with
    | none => .error (.badLineLengthCharacter linelen)
    | some 0 => .ok ⟨.flush, [], src⟩
    | some 1 => .ok ⟨.delim, [], src⟩
    | some 2 => .ok ⟨.responseEnd, [], src⟩
    | some 3 => .error (.badLineLength 3)
    | some (len + 4) => if size ≤ len then .error (.badLineLength len) else readBody options len src

section Packets

variable {options : ReadOptions} {size : Nat} {buf src rest : List UInt8}

lemma hexval_hex (a : Nat) : Notes.hexval (hex a) = some (UInt8.ofNat (a % 16)) := by
  have hall : ∀ n : Fin 16, Notes.hexval ((ascii "0123456789abcdef").getD n 0) = some (UInt8.ofNat n) := by decide
  rw [hex, Nat.and_two_pow_sub_one_eq_mod a 4]
  exact hall ⟨a % 16, Nat.mod_lt _ (by decide)⟩

lemma packetLength_header {n : Nat} (h : n < 2 ^ 16) : packetLength (setPacketHeader n) = some n := by
  have hor (a b i : Nat) (hb : b < 2 ^ i) : a <<< i ||| b = 2 ^ i * a + b := by
    rw [Nat.shiftLeft_eq, Nat.mul_comm, Nat.two_pow_add_eq_or_of_lt hb]
  have hdigit (k : Nat) : (UInt8.ofNat (k % 16)).toNat = k % 16 := by
    rw [UInt8.toNat_ofNat']
    omega
  simp only [packetLength, setPacketHeader, List.map_cons, List.map_nil, hexval_hex, hdigit, Nat.shiftRight_eq_div_pow,
    Option.some.injEq]
  rw [Nat.or_assoc, Nat.or_assoc, hor _ (n % 16) 4 (by omega), hor _ _ 8 (by omega), hor _ _ 12 (by omega)]
  omega

lemma getPacketData_append (hbuf : buf.length = size) : getPacketData (buf ++ rest) size = some (buf, rest) := by
  subst hbuf
  simp [getPacketData]

lemma packetRead_header {len : Nat} (hlen : len ≤ largePacketDataMax) (hsize : len < size) :
    packetReadWithStatus options size (setPacketHeader (len + 4) ++ src) = readBody options len src := by
  have hlength : packetLength (setPacketHeader (len + 4)) = some (len + 4) :=
    packetLength_header (by rw [largePacketDataMax, largePacketMax] at hlen; omega)
  have hheader : getPacketData (setPacketHeader (len + 4) ++ src) 4 = some (setPacketHeader (len + 4), src) :=
    getPacketData_append rfl
  rw [packetReadWithStatus, hheader]
  dsimp only
  rw [hlength]
  dsimp only
  rw [if_neg hsize.not_ge]

lemma packetRead_flush : packetReadWithStatus options size (packetFlush ++ rest) = .ok ⟨.flush, [], rest⟩ := by
  have hflush : getPacketData (packetFlush ++ rest) 4 = some (packetFlush, rest) := getPacketData_append rfl
  rw [packetReadWithStatus, hflush]
  rfl

lemma packetRead_shrinks {read : PacketRead} (h : packetReadWithStatus options size src = .ok read) :
    read.status = .eof ∨ read.src.length < src.length := by
  have hend : ∀ {r}, earlyEnd options = .ok r → r.status = .eof := fun hr => by
    rw [earlyEnd] at hr
    split_ifs at hr
    cases hr
    rfl
  rw [packetReadWithStatus] at h
  cases hheader : getPacketData src 4 with
  | none => exact .inl (hend (by rwa [hheader] at h))
  | some p =>
    rw [hheader] at h
    rw [getPacketData] at hheader
    split_ifs at hheader with hlong
    cases hheader
    dsimp only at h
    split at h
    · cases h
    · cases h
      exact .inr (by rw [List.length_drop]; omega)
    · cases h
      exact .inr (by rw [List.length_drop]; omega)
    · cases h
      exact .inr (by rw [List.length_drop]; omega)
    · cases h
    · split_ifs at h
      rw [readBody] at h
      split at h
      · exact .inl (hend h)
      · rename_i hbody
        rw [getPacketData] at hbody
        split_ifs at hbody
        cases hbody
        dsimp only at h
        split_ifs at h
        cases h
        exact .inr (by rw [List.length_drop, List.length_drop]; omega)

end Packets

section Stream

variable {S R : Type} {step : S → S ⊕ R} {src out : S → List UInt8} {options : ReadOptions} {size : Nat} {s : S}
variable {bytes bytes' payload payload' : List UInt8}

def Stopped (options : ReadOptions) (size : Nat) (src : List UInt8) : Prop :=
  packetReadWithStatus options size src = earlyEnd options

/-- A loop over packets that reads these bytes has put the payload out, whatever comes behind them. Where they are cut off
it comes to the end of its source, and has put out a part of the payload. -/
structure Delivers (options : ReadOptions) (size : Nat) (step : S → S ⊕ R) (src out : S → List UInt8)
    (bytes payload : List UInt8) : Prop where
  whole {s : S} {rest : List UInt8} (h : src s = bytes ++ rest) :
    ∃ s', LoopRun step s s' ∧ src s' = rest ∧ out s' = out s ++ payload
  cut {s : S} (hcut : src s <+: bytes) (hne : src s ≠ bytes) :
    ∃ s' part, LoopRun step s s' ∧ Stopped options size (src s') ∧ out s' = out s ++ part ∧ part <+: payload

lemma Delivers.nil : Delivers options size step src out [] [] where
  whole h := ⟨_, .refl, h, (List.append_nil _).symm⟩
  cut hcut hne := absurd (List.prefix_nil.mp hcut) hne

lemma Delivers.append (h : Delivers options size step src out bytes payload)
    (h' : Delivers options size step src out bytes' payload') :
    Delivers options size step src out (bytes ++ bytes') (payload ++ payload') where
  whole hs := by
    obtain ⟨s', hrun, hsrc, hout⟩ := h.whole (hs.trans (List.append_assoc _ _ _))
    obtain ⟨s'', hrun', hsrc', hout'⟩ := h'.whole hsrc
    exact ⟨s'', hrun.trans hrun', hsrc', by rw [hout', hout, List.append_assoc]⟩
  cut {s} hcut hne := by
    by_cases hfirst : bytes <+: src s
    · obtain ⟨tail, htail⟩ := hfirst
      obtain ⟨s', hrun, rfl, hout⟩ := h.whole htail.symm
      rw [← htail, List.prefix_append_right_inj] at hcut
      obtain ⟨s'', part, hrun', hstopped, hout', hpart⟩ := h'.cut hcut fun heq => hne (by rw [← htail, heq])
      exact ⟨s'', payload ++ part, hrun.trans hrun', hstopped, by rw [hout', hout, List.append_assoc],
        (List.prefix_append_right_inj _).mpr hpart⟩
    · have hprefix := (List.prefix_or_prefix_of_prefix hcut (List.prefix_append bytes bytes')).resolve_right hfirst
      obtain ⟨s', part, hrun, hstopped, hout, hpart⟩ := h.cut hprefix fun heq => hfirst (by rw [heq])
      exact ⟨s', part, hrun, hstopped, hout, hpart.trans (List.prefix_append _ _)⟩

lemma Delivers.packet {buf : List UInt8} (hbuf : buf.length ≤ largePacketDataMax) (hsize : buf.length < size)
    (hdie : options.dieOnErrPacket = false)
    (hstep : ∀ s rest, packetReadWithStatus options size (src s) = .ok ⟨.normal, chomp options buf, rest⟩ →
      ∃ s', step s = .inl s' ∧ src s' = rest ∧ out s' = out s ++ payload) :
    Delivers options size step src out (setPacketHeader (buf.length + 4) ++ buf) payload where
  whole {s rest} hs := by
    obtain ⟨s', hs', hsrc, hout⟩ := hstep s rest (by
      rw [hs, List.append_assoc, packetRead_header hbuf hsize, readBody, getPacketData_append rfl]
      simp [hdie])
    exact ⟨s', .single hs', hsrc, hout⟩
  cut {s} hcut hne := by
    refine ⟨s, [], .refl, ?_, (List.append_nil _).symm, List.nil_prefix⟩
    by_cases hshort : (src s).length < 4
    · rw [Stopped, packetReadWithStatus, getPacketData, if_pos hshort]
    · obtain ⟨tail, htail⟩ : setPacketHeader (buf.length + 4) <+: src s :=
        List.prefix_of_prefix_length_le (List.prefix_append _ _) hcut (Nat.not_lt.mp hshort)
      rw [← htail, List.prefix_append_right_inj] at hcut
      have hlt : tail.length < buf.length :=
        lt_of_le_of_ne hcut.length_le fun heq => hne (by rw [← htail, hcut.eq_of_length heq])
      rw [Stopped, ← htail, packetRead_header hbuf hsize, readBody, getPacketData, if_pos hlt]

/-- A stream that is to end with a flush packet is cut off. -/
lemma Delivers.cut_flush (h : Delivers options size step src out bytes payload) (hcut : src s <+: bytes ++ packetFlush)
    (hne : src s ≠ bytes ++ packetFlush) :
    ∃ s' part, LoopRun step s s' ∧ Stopped options size (src s') ∧ out s' = out s ++ part ∧ part <+: payload := by
  by_cases hall : bytes <+: src s
  · obtain ⟨tail, htail⟩ := hall
    obtain ⟨s', hrun, rfl, hout⟩ := h.whole htail.symm
    rw [← htail, List.prefix_append_right_inj] at hcut
    have hshort : (src s').length < 4 :=
      lt_of_le_of_ne hcut.length_le fun heq => hne (by rw [← htail, hcut.eq_of_length heq])
    refine ⟨s', payload, hrun, ?_, hout, List.prefix_refl _⟩
    rw [Stopped, packetReadWithStatus, getPacketData, if_pos hshort]
  · have hprefix := (List.prefix_or_prefix_of_prefix hcut (List.prefix_append _ _)).resolve_right hall
    exact h.cut hprefix fun heq => hall (by rw [heq])

end Stream

section Packetized

/-- `write_packetized_from_buf_no_flush_count`: what it writes and how many packets, if no write fails. -/
def writePacketizedFromBuf (srcIn : List UInt8) : Option (List UInt8 × Nat) :=
  if srcIn = [] then some ([], 0)
  else
    match doPacketWrite (srcIn.take largePacketDataMax), writePacketizedFromBuf (srcIn.drop largePacketDataMax) with
    | some packet, some (out, packetCounter) => some (packet ++ out, packetCounter + 1)
    | _, _ => none
termination_by srcIn.length
decreasing_by
  have : 0 < srcIn.length := List.length_pos_iff.mpr ‹_›
  rw [List.length_drop, largePacketDataMax, largePacketMax]
  omega

structure Packetized where
  sbOut : List UInt8
  src : List UInt8

/-- A round of `read_packetized_to_strbuf`. Its result has no value where the length of the packet is negative. -/
def readPacketizedStep (options : ReadOptions) (s : Packetized) :
    Packetized ⊕ Except ReadError (Option (List UInt8) × List UInt8) :=
  match packetReadWithStatus options (largePacketDataMax + 1) s.src with
  | .error e => .inr (.error e)
  | .ok read =>
    if read.status = .eof then .inr (.ok (none, read.src))
    else if read.buffer = [] then .inr (.ok (some s.sbOut, read.src))
    else .inl ⟨s.sbOut ++ read.buffer, read.src⟩

lemma readPacketizedStep_shrinks (options : ReadOptions) (s s' : Packetized) (h : readPacketizedStep options s = .inl s') :
    s'.src.length < s.src.length := by
  rw [readPacketizedStep] at h
  split at h
  · cases h
  · rename_i hread
    split_ifs at h with heof
    cases h
    exact (packetRead_shrinks hread).resolve_left heof

def readPacketizedToStrbuf (options : ReadOptions) (src : List UInt8) : Except ReadError (Option (List UInt8) × List UInt8) :=
  loop (readPacketizedStep options) (fun s => s.src.length) (readPacketizedStep_shrinks options) ⟨[], src⟩

lemma delivers_packetized (options : ReadOptions) (hchomp : options.chompNewline = false)
    (hdie : options.dieOnErrPacket = false) (srcIn : List UInt8) :
    ∃ out, writePacketizedFromBuf srcIn = some (out, (srcIn.length + largePacketDataMax - 1) / largePacketDataMax) ∧
      Delivers options (largePacketDataMax + 1) (readPacketizedStep options) Packetized.src Packetized.sbOut out srcIn := by
  induction hsize : srcIn.length using Nat.strong_induction_on generalizing srcIn with
  | _ size ih =>
    have hmax : 0 < largePacketDataMax := by decide
    by_cases hempty : srcIn = []
    · subst hempty
      exact ⟨[], by rw [writePacketizedFromBuf, if_pos rfl, ← hsize]; rfl, .nil⟩
    · have hpos : 0 < srcIn.length := List.length_pos_iff.mpr hempty
      obtain ⟨out, hout, hmore⟩ := ih (srcIn.drop largePacketDataMax).length (by rw [List.length_drop]; omega) _ rfl
      have hsplit := srcIn.take_append_drop largePacketDataMax
      have hle : (srcIn.take largePacketDataMax).length ≤ largePacketDataMax := List.length_take_le _ _
      have hchunk : srcIn.take largePacketDataMax ≠ [] := fun h =>
        (List.take_eq_nil_iff.mp h).elim (fun h => absurd h hmax.ne') hempty
      rw [writePacketizedFromBuf, if_neg hempty, hout, doPacketWrite, if_neg hle.not_gt]
      generalize srcIn.take largePacketDataMax = chunk at *
      refine ⟨_, ?_, hsplit ▸ Delivers.append (.packet hle (Nat.lt_succ_of_le hle) hdie fun s rest hread => ?_) hmore⟩
      · rw [Option.some.injEq, Prod.mk.injEq, List.length_drop, ← hsize, ← Nat.add_div_right _ hmax]
        refine ⟨rfl, ?_⟩
        rw [largePacketDataMax, largePacketMax]
        omega
      · rw [chomp, if_neg (by simp [hchomp])] at hread
        exact ⟨⟨s.sbOut ++ chunk, rest⟩, by simp [readPacketizedStep, hread, hchunk], rfl, rfl⟩

/-- A buffer is read back from its packets in front of a flush packet, and a stream that is cut off before its end is
never taken for a shorter buffer. -/
theorem readPacketized_written (gentleOnEof useSideband : Bool) (srcIn : List UInt8) :
    ∃ out, writePacketizedFromBuf srcIn =
        some (out, (srcIn.length + largePacketDataMax - 1) / largePacketDataMax) ∧
      (∀ rest, readPacketizedToStrbuf ⟨gentleOnEof, false, false, useSideband⟩ (out ++ (packetFlush ++ rest)) =
        .ok (some srcIn, rest)) ∧
      ∀ cut, cut <+: out ++ packetFlush → cut ≠ out ++ packetFlush →
        readPacketizedToStrbuf ⟨gentleOnEof, false, false, useSideband⟩ cut =
          if gentleOnEof then .ok (none, []) else .error .hungUp := by
  obtain ⟨out, hout, hdelivers⟩ := delivers_packetized ⟨gentleOnEof, false, false, useSideband⟩ rfl rfl srcIn
  refine ⟨out, hout, fun rest => ?_, fun cut hcut hne => ?_⟩
  · obtain ⟨s, hrun, hsrc, hsb⟩ := @hdelivers.whole ⟨[], out ++ (packetFlush ++ rest)⟩ _ rfl
    refine loop_of_run hrun ?_
    rw [readPacketizedStep, hsrc, packetRead_flush, hsb]
    rfl
  · obtain ⟨s, part, hrun, hstopped, -⟩ := @Delivers.cut_flush _ _ _ _ _ _ _ ⟨[], cut⟩ _ _ hdelivers hcut hne
    refine loop_of_run hrun ?_
    rw [readPacketizedStep, hstopped, earlyEnd]
    cases gentleOnEof <;> rfl

end Packetized

section Sidebands

/-- `packet_max`, with room for a byte behind the header and four digits for the length. -/
structure PacketMax where
  value : Nat
  room : 5 < value
  digits : value ≤ largePacketMax

def sendSideband (band : Option UInt8) (data : List UInt8) (packetMax : PacketMax) : List UInt8 :=
  if data = [] then []
  else
    let n := min data.length (packetMax.value - 5)
    -- `%04x` writes four digits, as `packet_max` has no more
    let hdr := match band with
      | some band => setPacketHeader (n + 5) ++ [band]
      | none => setPacketHeader (n + 4)
    hdr ++ data.take n ++ sendSideband band (data.drop n) packetMax
termination_by data.length
decreasing_by
  have := List.length_pos_iff.mpr ‹_›
  have := packetMax.room
  rw [List.length_drop]
  omega

structure Receiver where
  out : List UInt8
  /-- The texts for standard error. -/
  written : List Strbuf
  scratch : Strbuf
  src : List UInt8

/-- A round of `recv_sideband`, and the type it ends with. -/
def recvStep (settings : Settings) (me : ProgramName) (s : Receiver) : Receiver ⊕ Except ReadError (Receiver × SidebandType) :=
  match packetReadWithStatus ⟨true, false, false, false⟩ largePacketMax s.src with
  | .error e => .inr (.error e)
  | .ok read =>
    let outcome := demultiplexSideband settings s.scratch ⟨me, read.status, read.buffer, false⟩
    let s' : Receiver := ⟨s.out, s.written ++ outcome.written, outcome.scratch, read.src⟩
    match outcome.sidebandType with
    | none => .inl s'
    | some .primary => .inl { s' with out := s.out ++ read.buffer.tail }
    | some type => .inr (if s'.scratch ≠ [] then .error .unhandledSideband else .ok (s', type))

lemma cleanup_received (type : SidebandType) (scratch : Strbuf) :
    ∃ written, cleanup false type scratch = ⟨written, [], some type, false⟩ := by
  rw [cleanup, if_neg (by simp)]
  split_ifs with hscratch
  · exact ⟨_, rfl⟩
  · exact ⟨_, rfl⟩

lemma recvStep_eof {settings : Settings} {me : ProgramName} {s : Receiver} {read : PacketRead}
    (hread : packetReadWithStatus ⟨true, false, false, false⟩ largePacketMax s.src = .ok read) (heof : read.status = .eof) :
    ∃ written, recvStep settings me s = .inr (.ok (⟨s.out, written, [], read.src⟩, .protocolError)) := by
  rw [recvStep, hread]
  dsimp only
  rw [demultiplexSideband, if_pos heof]
  obtain ⟨written, hcleanup⟩ := cleanup_received .protocolError _
  exact ⟨s.written ++ written, by rw [hcleanup]; rfl⟩

lemma recvStep_shrinks (settings : Settings) (me : ProgramName) (s s' : Receiver) (h : recvStep settings me s = .inl s') :
    s'.src.length < s.src.length := by
  cases hread : packetReadWithStatus ⟨true, false, false, false⟩ largePacketMax s.src with
  | error e =>
    rw [recvStep, hread] at h
    cases h
  | ok read =>
    refine (packetRead_shrinks hread).elim (fun heof => ?_) fun hlt => ?_
    · obtain ⟨written, hstep⟩ := @recvStep_eof settings me s read hread heof
      rw [hstep] at h
      cases h
    · rw [recvStep, hread] at h
      dsimp only at h
      split at h <;> cases h <;> exact hlt

def recvSideband (settings : Settings) (me : ProgramName) (src : List UInt8) : Except ReadError (Receiver × SidebandType) :=
  loop (recvStep settings me) (fun s => s.src.length) (recvStep_shrinks settings me) ⟨[], [], [], src⟩

/-- What is sent in front of the flush packet. A packet without data on band 1 keeps the connection alive. -/
inductive Send
  | primary (data : List UInt8) (packetMax : PacketMax)
  | progress (data : List UInt8) (packetMax : PacketMax)
  | keepalive

def Send.bytes : Send → List UInt8
  | .primary data packetMax => sendSideband (some 1) data packetMax
  | .progress data packetMax => sendSideband (some 2) data packetMax
  | .keepalive => ascii "0005" ++ [1]

def Send.payload : Send → List UInt8
  | .primary data _ => data
  | _ => []

variable {settings : Settings} {me : ProgramName}

lemma delivers_band {band : UInt8} (data : List UInt8) (hbuf : (band :: data).length ≤ largePacketDataMax)
    (hband : band = 1 ∨ band = 2) :
    Delivers ⟨true, false, false, false⟩ largePacketMax (recvStep settings me) Receiver.src Receiver.out
      (setPacketHeader (data.length + 5) ++ band :: data) (if band = 1 then data else []) := by
  have hsize : (band :: data).length < largePacketMax := hbuf.trans_lt (by decide)
  rw [show data.length + 5 = (band :: data).length + 4 from rfl]
  refine .packet hbuf hsize rfl fun s rest hread => ?_
  rw [chomp, if_neg (by simp)] at hread
  rcases hband with rfl | rfl
  · exact ⟨⟨s.out ++ data, s.written ++ [], s.scratch, rest⟩, by rw [recvStep, hread]; rfl, rfl, rfl⟩
  · obtain ⟨written, scratch, hcall⟩ : ∃ written scratch,
        demultiplexSideband settings s.scratch ⟨me, .normal, 2 :: data, false⟩ = ⟨written, scratch, none, false⟩ := by
      rw [demultiplexSideband, if_neg (by simp)]
      exact ⟨_, _, (if_neg (by decide)).trans (if_pos rfl)⟩
    refine ⟨⟨s.out, s.written ++ written, scratch, rest⟩, ?_, rfl, (List.append_nil _).symm⟩
    rw [recvStep, hread]
    dsimp only
    rw [hcall]

lemma delivers_sendSideband {band : UInt8} (data : List UInt8) (packetMax : PacketMax) (hband : band = 1 ∨ band = 2) :
    Delivers ⟨true, false, false, false⟩ largePacketMax (recvStep settings me) Receiver.src Receiver.out
      (sendSideband (some band) data packetMax) (if band = 1 then data else []) := by
  induction hsize : data.length using Nat.strong_induction_on generalizing data with
  | _ size ih =>
    rw [sendSideband]
    by_cases hempty : data = []
    · subst hempty
      rw [if_pos rfl, ite_self]
      exact .nil
    · have hpos := List.length_pos_iff.mpr hempty
      have hroom := packetMax.room
      have hdigits := packetMax.digits
      generalize hn : min data.length (packetMax.value - 5) = n
      have hchunk : (data.take n).length = n := List.length_take_of_le (by omega)
      have hfirst := @delivers_band settings me band (data.take n)
        (by rw [List.length_cons, hchunk, largePacketDataMax]; omega) hband
      have hmore := ih (data.drop n).length (by rw [List.length_drop]; omega) (data.drop n) rfl
      have hboth := hfirst.append hmore
      rw [if_neg hempty]
      rw [hchunk] at hboth
      split_ifs at hboth ⊢
      · simpa using hboth
      · simpa using hboth

lemma delivers_sends (settings : Settings) (me : ProgramName) (sends : List Send) :
    Delivers ⟨true, false, false, false⟩ largePacketMax (recvStep settings me) Receiver.src Receiver.out
      (sends.flatMap Send.bytes) (sends.flatMap Send.payload) := by
  induction sends with
  | nil => exact .nil
  | cons send sends ih =>
    refine .append ?_ ih
    cases send with
    | primary data packetMax => exact delivers_sendSideband data packetMax (.inl rfl)
    | progress data packetMax => exact delivers_sendSideband data packetMax (.inr rfl)
    | keepalive => exact delivers_band [] (by decide) (.inl rfl)

end Sidebands

section Terminal

variable {settings : Settings} {me : ProgramName}

/-- The texts that were written are masked, and so is what is left of the last line. -/
def OnlyMasked (settings : Settings) (s : Receiver) : Prop :=
  (∀ text ∈ s.written, ∃ band, Masked settings.allow band text) ∧ Terminal.Complete (Allowed settings.allow) s.scratch

/-- No payload gets around the masking. -/
def MasksAll (settings : Settings) : Prop :=
  settings.allow.allControlCharacters = false ∧ settings.colors = false ∧ ¬ UsesStrchr settings.allow

lemma recvStep_masked (hall : MasksAll settings) {s s' : Receiver} (h : OnlyMasked settings s)
    (hs : recvStep settings me s = .inl s' ∨ ∃ type, recvStep settings me s = .inr (.ok (s', type))) :
    OnlyMasked settings s' := by
  rw [recvStep] at hs
  cases hread : packetReadWithStatus ⟨true, false, false, false⟩ largePacketMax s.src with
  | error e => simp [hread] at hs
  | ok read =>
    obtain ⟨hiff, hscratch⟩ := demultiplexSideband_masked_iff hall.1 h.2 ⟨me, read.status, read.buffer, false⟩
    have hwritten := hiff.mpr fun _ _ _ _ => ⟨fun hcr => absurd hcr.1 (by simp [hall.2.1]), fun hcut => hall.2.2 hcut.1⟩
    rw [hread] at hs
    dsimp only at hs
    generalize demultiplexSideband settings s.scratch ⟨me, read.status, read.buffer, false⟩ = outcome at *
    have hnext : s'.written = s.written ++ outcome.written ∧ s'.scratch = outcome.scratch := by
      split at hs
      · simp only [Sum.inl.injEq, reduceCtorEq, exists_false, or_false] at hs
        exact hs ▸ ⟨rfl, rfl⟩
      · simp only [Sum.inl.injEq, reduceCtorEq, exists_false, or_false] at hs
        exact hs ▸ ⟨rfl, rfl⟩
      · obtain ⟨type, htype⟩ := hs.resolve_left (by simp)
        split_ifs at htype <;> cases htype
        exact ⟨rfl, rfl⟩
    refine ⟨fun text htext => ?_, hnext.2 ▸ hscratch⟩
    rw [hnext.1] at htext
    exact (List.mem_append.mp htext).elim (h.1 text) fun htext => ⟨_, hwritten text htext⟩

end Terminal

end GitCore.Sideband
