import MatrixKV.LogReaderProofs

/-! # The log read back — log::Writer against log::Reader

    The reader sees the file block by block, the writer its offset in the block.
    `Aligned` relates the two: the buffer is what is left of the block.

    * `Aligned.read_record` — a physical record in the buffer is taken from it, and
      `Aligned.cut_record` — one that is cut off is the end of the log.
    * `skip_trailer`, `read_round` — the same for the trailer of a block and for a round
      of the writer.
    * `returns_loop` — the loop of `ReadRecord` against the loop of `AddRecord`. -/

namespace LogRoundTrip

open List FixedCoding LogWriter LogReader

/-! ## Blocks -/

/-- The reader is at offset `o` of a block, and `rest` is what follows in the file. -/
structure Aligned (r : Reader) (o : Nat) (rest : List UInt8) : Prop where
  rest : r.buffer ++ r.file = rest
  le : r.buffer.length ≤ blockSize - o
  full : r.eof = false → r.buffer.length = blockSize - o
  done : r.eof = true → r.file = []

theorem aligned_open (file : List UInt8) : Aligned { file := file } blockSize file where
  rest := rfl
  le := Nat.zero_le _
  full := fun _ => (Nat.sub_self _).symm
  done := nofun

variable {o : Nat}

/-- The next block is read. -/
theorem Aligned.more {r : Reader} {rest : List UInt8} (h : Aligned r o rest)
    (heof : r.eof = false) :
    ∃ r', readMore r = .inl r' ∧ Aligned r' 0 (rest.drop (blockSize - o)) := by
  have hfile : r.file = rest.drop (blockSize - o) := by
    rw [← h.rest, ← h.full heof, drop_left]
  rw [← hfile, readMore, heof, if_neg Bool.false_ne_true]
  refine ⟨_, rfl, take_append_drop _ _, ?_, ?_, ?_⟩
  · rw [Nat.sub_zero]
    exact length_take_le _ _
  · intro hfull
    have hlen := of_decide_eq_false hfull
    have hle := length_take_le blockSize r.file
    show (r.file.take blockSize).length = blockSize - 0
    omega
  · intro hdone
    have hlen := of_decide_eq_true hdone
    rw [length_take] at hlen
    exact drop_eq_nil_of_le (by omega)

variable {more : List UInt8}

/-- What lies in the block is in the buffer. -/
theorem Aligned.buffer_eq {r : Reader} {bs : List UInt8} (h : Aligned r o (bs ++ more))
    (hlen : bs.length ≤ blockSize - o) : ∃ b, r.buffer = bs ++ b ∧ b ++ r.file = more := by
  have hle : bs.length ≤ r.buffer.length := by
    cases heof : r.eof with
    | false =>
      rw [h.full heof]
      exact hlen
    | true =>
    have hrest := congrArg List.length h.rest
    rw [h.done heof, append_nil, length_append] at hrest
    omega
  obtain ⟨b, hb⟩ := prefix_of_prefix_length_le (prefix_append bs more)
    (h.rest ▸ prefix_append r.buffer r.file) hle
  refine ⟨b, hb.symm, ?_⟩
  have hrest := h.rest
  rw [← hb, append_assoc] at hrest
  exact append_cancel_left hrest

/-- A file that ends inside the block is in the buffer as a whole. -/
theorem Aligned.cut {r : Reader} {rest : List UInt8} (h : Aligned r o rest)
    (hlen : rest.length < blockSize - o) : r.eof = true ∧ r.buffer = rest := by
  have hrest := congrArg List.length h.rest
  rw [length_append] at hrest
  cases heof : r.eof with
  | false =>
    have hfull := h.full heof
    omega
  | true =>
    refine ⟨rfl, ?_⟩
    rw [← h.rest, h.done heof, append_nil]

/-! ## Physical records -/

/-- The header size of a type. -/
def headerOf (t : RecordType) : Nat :=
  if t.code < RecordType.recyclableFull.code then LogWriter.headerSize else recyclableHeaderSize

section Physical

variable {w : Writer} {t : RecordType} {payload : List UInt8}

section

variable (w : Writer) (t : RecordType)

theorem length_extraHeader :
    7 + (extraHeader w t).length = headerOf t := by
  rw [extraHeader, headerOf]
  split
  · rfl
  · rw [Writer.numberBytes, length_encodeFixed]
    rfl

theorem length_emit (payload : List UInt8) :
    (emitPhysicalRecord w t payload).length = headerOf t + payload.length := by
  rw [emitPhysicalRecord, ← length_extraHeader w t]
  simp only [length_append, length_cons, length_encodeFixed]
  omega

/-- The checksummed part of a physical record starts at its type. -/
theorem drop_six_emit (payload b : List UInt8) :
    (emitPhysicalRecord w t payload ++ b).drop 6
      = (UInt8.ofNat t.code :: (extraHeader w t ++ payload)) ++ b := rfl

theorem crc_emit (payload b : List UInt8) :
    Crc32c.unmask (UInt32.ofNat
      (decodeFixed ((emitPhysicalRecord w t payload ++ b).take 4)))
      = Crc32c.value (UInt8.ofNat t.code :: (extraHeader w t ++ payload)) := by
  have htake : (emitPhysicalRecord w t payload ++ b).take 4
      = encodeFixed 4 (recordCrc w t payload).toNat := rfl
  rw [htake, decodeFixed_encodeFixed (UInt32.toNat_lt _), UInt32.ofNat_toNat, recordCrc,
    Crc32c.unmask_mask]
  show Crc32c.extend _ payload = Crc32c.value ([UInt8.ofNat t.code] ++ (extraHeader w t ++ payload))
  rw [extraHeader]
  split
  · rw [nil_append, Crc32c.value_append]
  · rw [← Crc32c.value_append, ← Crc32c.value_append, append_assoc]

end

theorem charToUnsigned_code (t : RecordType) : charToUnsigned (UInt8.ofNat t.code) = t.code := by
  cases t <;> rfl

/-- The length field holds two bytes. -/
theorem length_bytes {n : Nat} (h : n < 65536) :
    (UInt8.ofNat (n % 256)).toNat + 256 * (UInt8.ofNat (n / 256)).toNat = n := by
  rw [UInt8.toNat_ofNat', UInt8.toNat_ofNat']
  omega

variable {opts : ReaderOptions} {r : Reader}

/-- A complete physical record at the front of the buffer. -/
theorem physicalBody_emit {b : List UInt8} (hbuf : r.buffer = emitPhysicalRecord w t payload ++ b)
    (hlen : payload.length < 65536) (ht : t.code ≠ 0) :
    physicalBody opts r (headerOf t) = { code := Code.ofType t.code, fragment := payload
                                         reader := { r with buffer := b } } := by
  have htype : charToUnsigned (r.buffer.getD 6 0) = t.code := by
    rw [hbuf]
    exact charToUnsigned_code t
  have hlength : (r.buffer.getD 4 0).toNat + 256 * (r.buffer.getD 5 0).toNat
      = payload.length := by
    rw [hbuf]
    exact length_bytes hlen
  have hextra := length_extraHeader w t
  have hcrc : (r.buffer.drop 6).take (payload.length + headerOf t - 6)
      = UInt8.ofNat t.code :: (extraHeader w t ++ payload) := by
    rw [hbuf, drop_six_emit]
    refine take_left' ?_
    rw [length_cons, length_append]
    omega
  have hfragment : (r.buffer.drop (headerOf t)).take payload.length = payload := by
    have hdrop : headerOf t = 6 + (1 + (extraHeader w t).length) := by omega
    rw [hbuf, hdrop, ← drop_drop, drop_six_emit, Nat.add_comm 1, cons_append,
      drop_succ_cons, append_assoc, drop_left, take_left]
  have hrest : r.buffer.drop (headerOf t + payload.length) = b := by
    rw [hbuf, ← length_emit w t payload, drop_left]
  rw [physicalBody]
  simp only [htype, hlength, hcrc, hfragment, hrest]
  rw [if_neg, if_neg (fun h => ht h.1), if_neg]
  · rintro ⟨-, hne⟩
    rw [hbuf, crc_emit] at hne
    exact hne rfl
  · rw [hbuf, length_append, length_emit]
    omega

/-- A physical record that the end of the file cuts off. -/
theorem physicalBody_cut {m : Nat} (heof : r.eof = true)
    (hbuf : r.buffer = (emitPhysicalRecord w t payload).take m) (hm : 7 ≤ m)
    (hcut : m < headerOf t + payload.length) (hlen : payload.length < 65536) :
    (physicalBody opts r (headerOf t)).code = .badHeader := by
  have hsize : r.buffer.length = m := by
    rw [hbuf, length_take, length_emit]
    omega
  have hlength : (r.buffer.getD 4 0).toNat + 256 * (r.buffer.getD 5 0).toNat
      = payload.length := by
    rw [hbuf, getD_eq_getElem?_getD, getD_eq_getElem?_getD,
      getElem?_take_of_lt (by omega), getElem?_take_of_lt (by omega)]
    exact length_bytes hlen
  rw [physicalBody]
  simp only [hlength, hsize, heof]
  rw [if_pos hcut, if_neg (by decide), if_pos (by omega)]

/-- The log number in the header is the reader's. -/
def SameNumber (w : Writer) (opts : ReaderOptions) (t : RecordType) : Prop :=
  t.code < RecordType.recyclableFull.code ∨ w.logNumber.toNat % 2 ^ 32 = opts.logNumber.toNat

theorem recyclable_range {t : RecordType} :
    (RecordType.recyclableFull.code ≤ t.code ∧ t.code ≤ RecordType.recyclableLast.code) ↔
      ¬ t.code < RecordType.recyclableFull.code := by
  cases t <;> decide

theorem number_emit {b : List UInt8} (ht : ¬ t.code < RecordType.recyclableFull.code) :
    decodeFixed (((emitPhysicalRecord w t payload ++ b).drop 7).take 4)
      = w.logNumber.toNat % 2 ^ 32 := by
  have hdrop : (emitPhysicalRecord w t payload ++ b).drop 7
      = (extraHeader w t ++ payload) ++ b := rfl
  rw [hdrop, extraHeader, if_neg ht, append_assoc, Writer.numberBytes,
    take_left' (length_encodeFixed ..)]
  exact decodeFixed_encodeFixed (Nat.mod_lt _ (by decide))

theorem physicalRound_emit {b : List UInt8}
    (hbuf : r.buffer = emitPhysicalRecord w t payload ++ b) (hlen : payload.length < 65536)
    (ht : t.code ≠ 0) (hnum : SameNumber w opts t) :
    ∃ r', physicalRound opts r = .inr { code := Code.ofType t.code, fragment := payload
                                        reader := r' } ∧
      r'.buffer = b ∧ r'.file = r.file ∧ r'.eof = r.eof := by
  have hsize : r.buffer.length = headerOf t + payload.length + b.length := by
    rw [hbuf, length_append, length_emit]
  have htype : charToUnsigned (r.buffer.getD 6 0) = t.code := by
    rw [hbuf]
    exact charToUnsigned_code t
  have hextra := length_extraHeader w t
  rw [physicalRound, if_neg (by rw [LogWriter.headerSize]; omega)]
  simp only [htype]
  by_cases hrec : t.code < RecordType.recyclableFull.code
  · have hheader : headerOf t = LogWriter.headerSize := if_pos hrec
    rw [if_neg (fun h => recyclable_range.mp h hrec), ← hheader, physicalBody_emit hbuf hlen ht]
    exact ⟨_, rfl, rfl, rfl, rfl⟩
  have hheader : headerOf t = recyclableHeaderSize := if_neg hrec
  have hnumber : decodeFixed ((r.buffer.drop 7).take 4) = opts.logNumber.toNat := by
    rw [hbuf, number_emit hrec]
    exact hnum.resolve_left hrec
  rw [if_pos (recyclable_range.mpr hrec), if_neg (by rw [← hheader]; omega),
    if_neg (fun h => h hnumber), ← hheader, physicalBody_emit (by exact hbuf) hlen ht]
  exact ⟨_, rfl, rfl, rfl, rfl⟩

theorem physicalRound_eq_readMore (h : r.buffer.length < 7) : physicalRound opts r = readMore r :=
  if_pos h

/-- At the end of the file a short buffer ends the log. -/
theorem readMore_of_eof (heof : r.eof = true) :
    ∃ p, readMore r = .inr p ∧ (p.code = .eof ∨ p.code = .badHeader) := by
  rw [readMore, if_pos heof]
  split
  · exact ⟨_, rfl, .inr rfl⟩
  · exact ⟨_, rfl, .inl rfl⟩

theorem physicalRound_cut {m : Nat} (heof : r.eof = true)
    (hbuf : r.buffer = (emitPhysicalRecord w t payload).take m)
    (hcut : m < headerOf t + payload.length) (hlen : payload.length < 65536)
    (hnum : SameNumber w opts t) :
    ∃ p, physicalRound opts r = .inr p ∧ (p.code = .eof ∨ p.code = .badHeader) := by
  have hsize : r.buffer.length = m := by
    rw [hbuf, length_take, length_emit]
    omega
  by_cases hm : m < 7
  · rw [physicalRound_eq_readMore (by omega)]
    exact readMore_of_eof heof
  have htype : charToUnsigned (r.buffer.getD 6 0) = t.code := by
    rw [hbuf, getD_eq_getElem?_getD, getElem?_take_of_lt (by omega)]
    exact charToUnsigned_code t
  rw [physicalRound, if_neg (by rw [hsize]; exact hm)]
  simp only [htype]
  by_cases hrec : t.code < RecordType.recyclableFull.code
  · have hheader : headerOf t = LogWriter.headerSize := if_pos hrec
    rw [if_neg (fun h => recyclable_range.mp h hrec), ← hheader]
    exact ⟨_, rfl, .inr (physicalBody_cut heof hbuf (by omega) hcut hlen)⟩
  have hheader : headerOf t = recyclableHeaderSize := if_neg hrec
  rw [if_pos (recyclable_range.mpr hrec)]
  by_cases hm' : m < recyclableHeaderSize
  · rw [if_pos (by rw [hsize]; exact hm')]
    exact readMore_of_eof (by exact heof)
  have hnumber : decodeFixed ((r.buffer.drop 7).take 4) = opts.logNumber.toNat := by
    have htake : (r.buffer.drop 7).take 4
        = ((emitPhysicalRecord w t payload ++ []).drop 7).take 4 := by
      rw [recyclableHeaderSize] at hm'
      rw [hbuf, append_nil, drop_take, take_take, Nat.min_eq_left (by omega)]
    rw [htake, number_emit hrec]
    exact hnum.resolve_left hrec
  rw [if_neg (by rw [hsize]; exact hm'), if_neg (fun h => h hnumber), ← hheader]
  exact ⟨_, rfl, .inr (physicalBody_cut (by exact heof) (by exact hbuf) (by omega) hcut hlen)⟩

/-- **A PHYSICAL RECORD** in the block is read, and the reader stands behind it. -/
theorem Aligned.read_record (h : Aligned r o (emitPhysicalRecord w t payload ++ more))
    (hroom : headerOf t + payload.length ≤ blockSize - o) (ht : t.code ≠ 0)
    (hnum : SameNumber w opts t) :
    ∃ r', readPhysicalRecord opts r = { code := Code.ofType t.code, fragment := payload
                                        reader := r' } ∧
      Aligned r' (o + headerOf t + payload.length) more := by
  have hsize := length_emit w t payload
  obtain ⟨b, hbuf, hmore⟩ := h.buffer_eq (by omega)
  obtain ⟨r', hround, hb, hfile, heof⟩ :=
    physicalRound_emit hbuf (by rw [blockSize] at hroom; omega) ht hnum
  refine ⟨r', readPhysicalRecord_of_inr hround, ?_, ?_, ?_, ?_⟩
  · rw [hb, hfile]
    exact hmore
  · have hle := h.le
    rw [hbuf, length_append] at hle
    rw [hb]
    omega
  · intro hfalse
    have hfull := h.full (heof ▸ hfalse)
    rw [hbuf, length_append] at hfull
    rw [hb]
    omega
  · intro htrue
    rw [hfile]
    exact h.done (heof ▸ htrue)

/-- One that is cut off is the end of the log. -/
theorem Aligned.cut_record {m : Nat}
    (h : Aligned r o ((emitPhysicalRecord w t payload ++ more).take m))
    (hcut : m < headerOf t + payload.length) (hroom : headerOf t + payload.length ≤ blockSize - o)
    (hnum : SameNumber w opts t) :
    (readPhysicalRecord opts r).code = .eof ∨ (readPhysicalRecord opts r).code = .badHeader := by
  have hsize := length_emit w t payload
  rw [take_append_of_le_length (by omega)] at h
  obtain ⟨heof, hbuf⟩ := h.cut (by rw [length_take]; omega)
  obtain ⟨p, hround, hp⟩ :=
    physicalRound_cut heof hbuf hcut (by rw [blockSize] at hroom; omega) hnum
  rw [readPhysicalRecord_of_inr hround]
  exact hp

/-- A round with a short buffer at the end of the file. -/
theorem physicalRound_short (heof : r.eof = true) (hshort : r.buffer.length < 7) :
    (readPhysicalRecord opts r).code = .eof ∨ (readPhysicalRecord opts r).code = .badHeader := by
  obtain ⟨p, hmore, hp⟩ := readMore_of_eof heof
  rw [readPhysicalRecord_of_inr ((physicalRound_eq_readMore hshort).trans hmore)]
  exact hp

/-- The end of the file. -/
theorem Aligned.read_end (h : Aligned r o []) : (readPhysicalRecord opts r).code = .eof := by
  have hend : ∀ r : Reader, r.eof = true → r.buffer = [] →
      (readPhysicalRecord opts r).code = .eof := by
    intro r heof hbuf
    have hmore : readMore r = .inr { code := .eof, reader := { r with buffer := [] } } := by
      rw [readMore, if_pos heof, hbuf, if_neg (fun hne => hne rfl)]
    rw [readPhysicalRecord_of_inr
      ((physicalRound_eq_readMore (by rw [hbuf]; decide)).trans hmore)]
  obtain ⟨hbuf, hfile⟩ := append_eq_nil_iff.mp h.rest
  cases heof : r.eof with
  | true => exact hend r heof hbuf
  | false =>
  obtain ⟨r', hmore, h'⟩ := h.more heof
  rw [drop_nil] at h'
  obtain ⟨heof', hbuf'⟩ := h'.cut (by decide)
  rw [readPhysicalRecord_of_inl
    ((physicalRound_eq_readMore (by rw [hbuf]; decide)).trans hmore)]
  exact hend r' heof' hbuf'

/-- A trailer that is long enough for a header reads as an empty record. -/
theorem physicalRound_zeros {n : Nat} (hbuf : r.buffer = List.replicate n 0) (hn : 7 ≤ n) :
    physicalRound opts r = .inr { code := .badRecord, reader := { r with buffer := [] } } := by
  have hzero : ∀ i < 7, r.buffer.getD i 0 = 0 := by
    intro i hi
    rw [hbuf, getD_eq_getElem?_getD, getElem?_replicate_of_lt (by omega), Option.getD_some]
  have hsize : r.buffer.length = n := by
    rw [hbuf, length_replicate]
  rw [physicalRound, if_neg (by rw [LogWriter.headerSize]; omega)]
  simp only [hzero 6 (by omega)]
  rw [if_neg (by decide), physicalBody]
  simp only [hzero 6 (by omega), hzero 5 (by omega), hzero 4 (by omega)]
  rw [if_neg (by rw [hsize, LogWriter.headerSize]; show ¬ n < 7 + 0; omega),
    if_pos ⟨by decide, by decide⟩]

end Physical

/-! ## Rounds of `ReadRecord` -/

section Rounds

variable {opts : ReaderOptions} {mode : WALRecoveryMode} {s : RecordState} {r : Reader}
  {x : List UInt8}

theorem round_full (hp : readPhysicalRecord opts s.reader = { code := .full, fragment := x
                                                              reader := r })
    (hs : s.inFragmentedRecord = false) :
    recordRound opts mode s = .inr ⟨some x, r, s.reports⟩ := by
  simp only [recordRound, hp, hs, RecordState.report, Bool.false_and, Bool.false_eq_true, if_false]

theorem round_first (hp : readPhysicalRecord opts s.reader = { code := .first, fragment := x
                                                               reader := r })
    (hs : s.inFragmentedRecord = false) :
    recordRound opts mode s = .inl { reader := r, inFragmentedRecord := true, scratch := x
                                     reports := s.reports } := by
  simp only [recordRound, hp, hs, RecordState.report, Bool.false_and, Bool.false_eq_true, if_false]

theorem round_middle (hp : readPhysicalRecord opts s.reader = { code := .middle, fragment := x
                                                                reader := r })
    (hs : s.inFragmentedRecord = true) :
    recordRound opts mode s = .inl { reader := r, inFragmentedRecord := true
                                     scratch := s.scratch ++ x, reports := s.reports } := by
  simp only [recordRound, hp, hs, if_true]

theorem round_last (hp : readPhysicalRecord opts s.reader = { code := .last, fragment := x
                                                              reader := r })
    (hs : s.inFragmentedRecord = true) :
    recordRound opts mode s = .inr ⟨some (s.scratch ++ x), r, s.reports⟩ := by
  simp only [recordRound, hp, hs, if_true]

/-- The end of the log is not reported, unless the mode asks for it. -/
theorem round_end (hp : (readPhysicalRecord opts s.reader).code = .eof ∨
      (readPhysicalRecord opts s.reader).code = .badHeader)
    (hmode : mode ≠ .absoluteConsistency) :
    recordRound opts mode s
      = .inr ⟨none, (readPhysicalRecord opts s.reader).reader, s.reports⟩ := by
  rcases hp with hp | hp <;>
    simp only [recordRound, hp, endOfLog, RecordState.report, hmode, decide_false,
      Bool.and_false, Bool.false_eq_true, if_false]

theorem round_eof (hp : (readPhysicalRecord opts s.reader).code = .eof)
    (hs : s.inFragmentedRecord = false) :
    recordRound opts mode s
      = .inr ⟨none, (readPhysicalRecord opts s.reader).reader, s.reports⟩ := by
  simp only [recordRound, hp, endOfLog, RecordState.report, hs, Bool.false_and,
    Bool.false_eq_true, if_false]

theorem round_badRecord (hp : readPhysicalRecord opts s.reader = { code := .badRecord
                                                                   reader := r })
    (hs : s.inFragmentedRecord = false) :
    recordRound opts mode s = .inl { s with reader := r } := by
  simp only [recordRound, hp, dropFragment, RecordState.report, hs, Bool.false_eq_true, if_false]

/-- Rounds that begin alike. -/
theorem returns_congr {s' : RecordState} {res : ReadResult}
    (h : recordRound opts mode s = recordRound opts mode s')
    (hr : WhileLoop.Returns (recordRound opts mode) s' res) :
    WhileLoop.Returns (recordRound opts mode) s res := by
  obtain ⟨fuel, hfuel⟩ := hr
  cases fuel with
  | zero => exact nomatch hfuel
  | succ fuel =>
  refine ⟨fuel + 1, ?_⟩
  rw [WhileLoop.run, h]
  exact hfuel

/-- A round that only reads the next block. -/
theorem round_congr {r' : Reader} (h : physicalRound opts s.reader = .inl r') :
    recordRound opts mode s = recordRound opts mode { s with reader := r' } := by
  simp only [recordRound, readPhysicalRecord_of_inl h]

end Rounds

/-! ## A record -/

section Record

variable {w : Writer} {opts : ReaderOptions} {mode : WALRecoveryMode}

section

variable (w : Writer) (isBegin isEnd : Bool)

theorem code_recordType_ne_zero : (recordType w isBegin isEnd).code ≠ 0 := by
  obtain ⟨n, recycle⟩ := w
  cases recycle <;> cases isBegin <;> cases isEnd <;> exact nofun

theorem headerOf_recordType :
    headerOf (recordType w isBegin isEnd) = w.headerSize := by
  obtain ⟨n, recycle⟩ := w
  cases recycle <;> cases isBegin <;> cases isEnd <;> rfl

theorem ofType_recordType :
    Code.ofType (recordType w isBegin isEnd).code =
      if isBegin then if isEnd then .full else .first else if isEnd then .last else .middle := by
  obtain ⟨n, recycle⟩ := w
  cases recycle <;> cases isBegin <;> cases isEnd <;> rfl

end

theorem sameNumber_recordType {isBegin isEnd : Bool}
    (h : w.recycleLogFiles = false ∨ w.logNumber.toNat % 2 ^ 32 = opts.logNumber.toNat) :
    SameNumber w opts (recordType w isBegin isEnd) := by
  refine h.imp_left ?_
  intro hrecycle
  obtain ⟨n, recycle⟩ := w
  cases hrecycle
  cases isBegin <;> cases isEnd <;> simp [recordType, RecordType.code]

/-- **THE TRAILER** of a block: either the reader gets past it, or the file ends in it
    and so does the log. -/
theorem skip_trailer (opts : ReaderOptions) (mode : WALRecoveryMode) {s : RecordState} {m : Nat}
    {bs : List UInt8} (hbs : bs ≠ []) (hs : s.inFragmentedRecord = true → o = blockSize)
    (h : Aligned s.reader o (((switchBlock w o).1 ++ bs).take m)) :
    ((switchBlock w o).1.length ≤ m ∧
      ∃ r, Aligned r (switchBlock w o).2 (bs.take (m - (switchBlock w o).1.length)) ∧
        ∀ res, WhileLoop.Returns (recordRound opts mode) { s with reader := r } res →
          WhileLoop.Returns (recordRound opts mode) s res) ∨
    (m ≤ (switchBlock w o).1.length ∧ (mode ≠ .absoluteConsistency →
      ∃ r, WhileLoop.Returns (recordRound opts mode) s ⟨none, r, s.reports⟩)) := by
  by_cases hswitch : blockSize - o < w.headerSize
  · have hpad : switchBlock w o = (List.replicate (blockSize - o) 0, 0) := if_pos hswitch
    rw [hpad] at h ⊢
    simp only [length_replicate] at h ⊢
    have hbs' := length_pos_iff.mpr hbs
    have hrest := congrArg List.length h.rest
    simp only [length_append, length_take, length_replicate] at hrest
    cases heof : s.reader.eof with
    | false =>
      have hfull := h.full heof
      have hdrop : ((List.replicate (blockSize - o) 0 ++ bs).take m).drop (blockSize - o)
          = bs.take (m - (blockSize - o)) := by
        rw [drop_take, drop_left' length_replicate]
      refine .inl ⟨by omega, ?_⟩
      by_cases hshort : blockSize - o < 7
      · obtain ⟨r, hmore, hr⟩ := h.more heof
        rw [hdrop] at hr
        refine ⟨r, hr, fun res => returns_congr (round_congr ?_)⟩
        exact (physicalRound_eq_readMore (by rw [hfull]; exact hshort)).trans hmore
      -- the trailer is skipped as an empty record
      have hzeros : s.reader.buffer = List.replicate (blockSize - o) 0 := by
        have htake := congrArg (List.take (blockSize - o)) h.rest
        rw [take_left' hfull, take_take, Nat.min_eq_left (by omega),
          take_left' length_replicate] at htake
        exact htake
      have hout : s.inFragmentedRecord = false := by
        rw [← Bool.not_eq_true]
        intro hin
        rw [hs hin, Nat.sub_self] at hshort
        exact hshort (by decide)
      have hbad : recordRound opts mode s
          = .inl { s with reader := { s.reader with buffer := [] } } :=
        round_badRecord
          (readPhysicalRecord_of_inr (physicalRound_zeros hzeros (by omega))) hout
      have hcleared : Aligned { s.reader with buffer := [] } blockSize
          (bs.take (m - (blockSize - o))) := by
        refine ⟨?_, Nat.zero_le _, fun _ => (Nat.sub_self _).symm, h.done⟩
        rw [← hdrop, ← h.rest, drop_left' hfull]
        rfl
      obtain ⟨r, hmore, hr⟩ := hcleared.more heof
      rw [Nat.sub_self, drop_zero] at hr
      refine ⟨r, hr, fun res hres => WhileLoop.Returns.round hbad ?_⟩
      refine returns_congr (round_congr ?_) hres
      refine (physicalRound_eq_readMore ?_).trans hmore
      show 0 < 7
      decide
    | true =>
    have hfile := h.done heof
    have hle := h.le
    rw [hfile, length_nil] at hrest
    have hbuf : s.reader.buffer = List.replicate m 0 := by
      have hbuf := h.rest
      rw [hfile, append_nil, take_append_of_le_length
        (by rw [length_replicate]; omega), take_replicate, Nat.min_eq_left (by omega)] at hbuf
      exact hbuf
    refine .inr ⟨by omega, fun hmode => ?_⟩
    by_cases hshort : m < 7
    · exact ⟨_, WhileLoop.Returns.exit (round_end (physicalRound_short heof
        (by rw [hbuf, length_replicate]; exact hshort)) hmode)⟩
    have hout : s.inFragmentedRecord = false := by
      rw [← Bool.not_eq_true]
      intro hin
      rw [hs hin, Nat.sub_self] at hle
      omega
    have hbad : recordRound opts mode s
        = .inl { s with reader := { s.reader with buffer := [] } } :=
      round_badRecord (readPhysicalRecord_of_inr (physicalRound_zeros hbuf (by omega))) hout
    exact ⟨_, WhileLoop.Returns.round hbad (WhileLoop.Returns.exit
      (round_end (physicalRound_short (by exact heof) (show 0 < 7 by decide)) hmode))⟩
  · have hstay : switchBlock w o = ([], o) := if_neg hswitch
    rw [hstay] at h ⊢
    refine .inl ⟨Nat.zero_le _, s.reader, ?_, fun res hres => hres⟩
    rw [length_nil, Nat.sub_zero]
    exact h

/-- The physical record of a round fits its block. -/
theorem fragment_room (w : Writer) (o left : Nat) (isBegin isEnd : Bool) :
    headerOf (recordType w isBegin isEnd) + fragmentLength w o left
      ≤ blockSize - (switchBlock w o).2 := by
  have hle := switchBlock_le w o
  have hlen := fragmentLength_le_avail w o left
  rw [avail] at hlen
  rw [headerOf_recordType]
  omega

section

variable (mode : WALRecoveryMode) (hnum : w.recycleLogFiles = false ∨ w.logNumber.toNat % 2 ^ 32
  = opts.logNumber.toNat)
include hnum

/-- The trailer and the physical record of a round: they are read, or the file ends in
    them. -/
theorem read_round
    {s : RecordState} {m : Nat} {isBegin isEnd : Bool} {payload : List UInt8} {left : Nat}
    (hlen : payload.length = fragmentLength w o left)
    (hs : s.inFragmentedRecord = true → o = blockSize) (h : Aligned s.reader o (((switchBlock w o).1
      ++ (emitPhysicalRecord w (recordType w isBegin isEnd) payload ++ more)).take m)) :
    ((switchBlock w o).1.length + (emitPhysicalRecord w (recordType w isBegin isEnd) payload).length
        ≤ m ∧
      ∃ r r', readPhysicalRecord opts r =
          { code := Code.ofType (recordType w isBegin isEnd).code, fragment := payload
            reader := r' } ∧
        Aligned r' (nextOffset w o left) (more.take (m - ((switchBlock w o).1.length +
          (emitPhysicalRecord w (recordType w isBegin isEnd) payload).length))) ∧
        ∀ res, WhileLoop.Returns (recordRound opts mode) { s with reader := r } res →
          WhileLoop.Returns (recordRound opts mode) s res) ∨
    (m < (switchBlock w o).1.length +
        (emitPhysicalRecord w (recordType w isBegin isEnd) payload).length ∧
      (mode ≠ .absoluteConsistency →
        ∃ r, WhileLoop.Returns (recordRound opts mode) s ⟨none, r, s.reports⟩)) := by
  have hroom := fragment_room w o left isBegin isEnd
  have hheader := headerOf_recordType w isBegin isEnd
  have hsize := length_emit w (recordType w isBegin isEnd) payload
  have hpos := headerSize_cases w
  rw [← hlen] at hroom
  have hne : emitPhysicalRecord w (recordType w isBegin isEnd) payload ++ more ≠ [] := by
    refine ne_nil_of_length_pos ?_
    rw [length_append]
    omega
  rcases skip_trailer opts mode hne hs h with ⟨hle, r, hr, hback⟩ | ⟨hle, hend⟩
  · by_cases hcut : m - (switchBlock w o).1.length
        < headerOf (recordType w isBegin isEnd) + payload.length
    · refine .inr ⟨by omega, fun hmode => ?_⟩
      have hcode := hr.cut_record hcut hroom (sameNumber_recordType hnum)
      exact ⟨_, hback _ (WhileLoop.Returns.exit (round_end hcode hmode))⟩
    · rw [take_append, hsize, take_of_length_le (by omega)] at hr
      obtain ⟨r', hread, hr'⟩ := hr.read_record hroom (code_recordType_ne_zero w isBegin isEnd)
        (sameNumber_recordType hnum)
      refine .inl ⟨by omega, r, r', hread, ?_, hback⟩
      rw [nextOffset, ← hlen, ← hheader, hsize, ← Nat.sub_sub]
      exact hr'
  · exact .inr ⟨by omega, hend⟩

/-- **A RECORD**: `ReadRecord` follows the rounds of `AddRecord`.  A record that is there as
    a whole is returned, one that is cut off ends the log. -/
theorem returns_loop (tail : List UInt8) (o : Nat) (left : List UInt8) (isBegin : Bool) :
    ∀ (s : RecordState) (m : Nat), s.inFragmentedRecord = !isBegin →
      (isBegin = false → o = blockSize) →
      Aligned s.reader o (((addRecordLoop w o left isBegin).1 ++ tail).take m) →
      ((addRecordLoop w o left isBegin).1.length ≤ m →
        ∃ r, WhileLoop.Returns (recordRound opts mode) s
            ⟨some ((if isBegin then [] else s.scratch) ++ left), r, s.reports⟩ ∧
          Aligned r (addRecordLoop w o left isBegin).2
            (tail.take (m - (addRecordLoop w o left isBegin).1.length))) ∧
      (m < (addRecordLoop w o left isBegin).1.length → mode ≠ .absoluteConsistency →
        ∃ r, WhileLoop.Returns (recordRound opts mode) s ⟨none, r, s.reports⟩) := by
  induction o, left, isBegin using addRecordLoop.induct w with
  | case1 o left isBegin len hlt ih =>
    intro s m hs ho h
    subst len
    have hlen : (left.take (fragmentLength w o left.length)).length
        = fragmentLength w o left.length := by
      rw [length_take]
      exact Nat.min_eq_left (fragmentLength_le w o left.length)
    have hfrag : s.inFragmentedRecord = true → o = blockSize := by
      intro hin
      rw [hs, Bool.not_eq_true'] at hin
      exact ho hin
    rw [nextOffset_of_lt hlt] at ih
    rw [addRecordLoop_of_lt hlt] at h ⊢
    simp only [length_append, append_assoc] at h ⊢
    rcases read_round mode hnum hlen hfrag h with
      ⟨hle, r, r', hread, hr', hback⟩ | ⟨hcut, hend⟩
    · rw [nextOffset_of_lt hlt] at hr'
      -- the fragment is the first one or a middle one
      obtain ⟨s', hround, hreader, hin, hscratch, hreports⟩ : ∃ s',
          recordRound opts mode { s with reader := r } = .inl s' ∧ s'.reader = r' ∧
          s'.inFragmentedRecord = true ∧
          s'.scratch = (if isBegin then [] else s.scratch) ++
            left.take (fragmentLength w o left.length) ∧
          s'.reports = s.reports := by
        rw [ofType_recordType] at hread
        cases isBegin with
        | true => exact ⟨_, round_first hread hs, rfl, rfl, rfl, rfl⟩
        | false => exact ⟨_, round_middle hread hs, rfl, rfl, rfl, rfl⟩
      obtain ⟨hdone, hcutoff⟩ := ih s' _ hin (fun _ => rfl) (hreader.symm ▸ hr')
      rw [hreports] at hdone hcutoff
      constructor
      · intro hm
        obtain ⟨r'', hret, hr''⟩ := hdone (by omega)
        rw [if_neg Bool.false_ne_true, hscratch, append_assoc, take_append_drop]
          at hret
        refine ⟨r'', hback _ (WhileLoop.Returns.round hround hret), ?_⟩
        rw [Nat.sub_sub, Nat.add_assoc] at hr''
        exact hr''
      · intro hm hmode
        obtain ⟨r'', hret⟩ := hcutoff (by omega) hmode
        exact ⟨r'', hback _ (WhileLoop.Returns.round hround hret)⟩
    · exact ⟨fun hm => absurd hm (by omega), fun _ hmode => hend hmode⟩
  | case2 o left isBegin len hlt =>
  intro s m hs ho h
  have hfrag : s.inFragmentedRecord = true → o = blockSize := by
    intro hin
    rw [hs, Bool.not_eq_true'] at hin
    exact ho hin
  have hlen : left.length = fragmentLength w o left.length :=
    Nat.le_antisymm (Nat.le_of_not_lt hlt) (fragmentLength_le w o left.length)
  rw [addRecordLoop_of_eq hlen.symm] at h ⊢
  simp only [length_append, append_assoc] at h ⊢
  rcases read_round mode hnum hlen hfrag h with
    ⟨hle, r, r', hread, hr', hback⟩ | ⟨hcut, hend⟩
  · refine ⟨fun _ => ⟨r', hback _ (WhileLoop.Returns.exit ?_), hr'⟩,
      fun hm => absurd hm (by omega)⟩
    rw [ofType_recordType] at hread
    cases isBegin with
    | true => exact round_full hread hs
    | false => exact round_last hread hs
  · exact ⟨fun hm => absurd hm (by omega), fun _ hmode => hend hmode⟩

end

end Record

end LogRoundTrip
