import MatrixKV.WhileLoopProofs
import MatrixKV.LogWriterProofs

/-! # Reading the log — db/log_reader.cc

    `ReadRecord` puts a record together from physical records, which
    `ReadPhysicalRecord` takes from a buffer of one block.

    * `readPhysicalRecord` follows the source through all its exits.  The type byte of
      a record and the special results share one range of codes, as in the source.
    * `recordRound` is one round of the loop of `ReadRecord`, in every
      `WALRecoveryMode`.  The loop need not end, so `readLog` counts rounds.

    Reads of the file succeed and give a full block unless the file ends; the reader
    does not retry after the end of the file. -/

namespace LogReader

open FixedCoding LogWriter

inductive WALRecoveryMode
  | tolerateCorruptedTailRecords
  | absoluteConsistency
  | pointInTimeRecovery
  | skipAnyCorruptedRecords
  deriving DecidableEq, Repr

/-- What a `Reader` is made with. -/
structure ReaderOptions where
  checksum : Bool
  logNumber : UInt64
  deriving DecidableEq, Repr

/-- The reader: the bytes of the file it has not read, and its buffer. -/
structure Reader where
  file : List UInt8
  buffer : List UInt8 := []
  eof : Bool := false
  endOfBufferOffset : Nat := 0
  recycled : Bool := false
  deriving DecidableEq, Repr

/-- What `ReadPhysicalRecord` returns. -/
inductive Code
  | full
  | first
  | middle
  | last
  | eof
  | badRecord
  | badHeader
  | oldRecord
  | badRecordLen
  | badRecordChecksum
  | unknown (recordType : Nat)
  deriving DecidableEq, Repr

/-- The result that a type byte amounts to; `kEof` and the others follow directly on the
    record types. -/
def Code.ofType : Nat → Code
  | 1 => full
  | 2 => first
  | 3 => middle
  | 4 => last
  | 5 => full
  | 6 => first
  | 7 => middle
  | 8 => last
  | 9 => eof
  | 10 => badRecord
  | 11 => badHeader
  | 12 => oldRecord
  | 13 => badRecordLen
  | 14 => badRecordChecksum
  | n => unknown n

structure Physical where
  code : Code
  fragment : List UInt8 := []
  dropSize : Nat := 0
  reader : Reader
  deriving DecidableEq, Repr

/-! ## Physical records -/

/-- `ReadMore`: the next block, or why there is none. -/
def readMore (r : Reader) : Reader ⊕ Physical :=
  if r.eof then
    if r.buffer.length ≠ 0 then
      .inr { code := .badHeader, dropSize := r.buffer.length, reader := { r with buffer := [] } }
    else .inr { code := .eof, reader := { r with buffer := [] } }
  else
    .inl { r with
      file := r.file.drop blockSize
      buffer := r.file.take blockSize
      eof := decide ((r.file.take blockSize).length < blockSize)
      endOfBufferOffset := r.endOfBufferOffset + (r.file.take blockSize).length }

/-- The conversion of a `char` to an `unsigned int`. -/
def charToUnsigned (c : UInt8) : Nat := if c < 128 then c.toNat else c.toNat + (2 ^ 32 - 256)

/-- The end of a round, when the header is complete. -/
def physicalBody (opts : ReaderOptions) (r : Reader) (header : Nat) : Physical :=
  let type := charToUnsigned (r.buffer.getD 6 0)
  let length := (r.buffer.getD 4 0).toNat + 256 * (r.buffer.getD 5 0).toNat
  if r.buffer.length < header + length then
    if r.eof = false then
      { code := .badRecordLen, dropSize := r.buffer.length, reader := { r with buffer := [] } }
    else if r.buffer.length ≠ 0 then
      { code := .badHeader, dropSize := r.buffer.length, reader := { r with buffer := [] } }
    else { code := .eof, reader := { r with buffer := [] } }
  else if type = RecordType.zero.code ∧ length = 0 then
    { code := .badRecord, reader := { r with buffer := [] } }
  else if opts.checksum = true ∧
      Crc32c.value ((r.buffer.drop 6).take (length + header - 6)) ≠
        Crc32c.unmask (UInt32.ofNat (decodeFixed (r.buffer.take 4))) then
    { code := .badRecordChecksum, dropSize := r.buffer.length, reader := { r with buffer := [] } }
  else
    { code := Code.ofType type
      fragment := (r.buffer.drop header).take length
      reader := { r with buffer := r.buffer.drop (header + length) } }

/-- A round of the loop of `ReadPhysicalRecord`. -/
def physicalRound (opts : ReaderOptions) (r : Reader) : Reader ⊕ Physical :=
  if r.buffer.length < LogWriter.headerSize then readMore r
  else
    let type := charToUnsigned (r.buffer.getD 6 0)
    if RecordType.recyclableFull.code ≤ type ∧ type ≤ RecordType.recyclableLast.code then
      let r := { r with
        recycled := r.recycled || decide (r.endOfBufferOffset - r.buffer.length = 0) }
      if r.buffer.length < recyclableHeaderSize then readMore r
      else if decodeFixed ((r.buffer.drop 7).take 4) ≠ opts.logNumber.toNat then
        .inr { code := .oldRecord, reader := r }
      else .inr (physicalBody opts r recyclableHeaderSize)
    else .inr (physicalBody opts r LogWriter.headerSize)

/-- How much is left to read. -/
def Reader.toRead (r : Reader) : Nat := if r.eof then 0 else r.file.length + 1

theorem readMore_toRead {r r' : Reader} (h : readMore r = .inl r') : r'.toRead < r.toRead := by
  rw [readMore] at h
  cases he : r.eof with
  | true =>
    rw [he, if_pos rfl] at h
    split at h <;> exact nomatch h
  | false =>
  rw [he, if_neg Bool.false_ne_true, Sum.inl.injEq] at h
  subst h
  rw [Reader.toRead, Reader.toRead, he, if_neg Bool.false_ne_true]
  simp only [List.length_take, List.length_drop, decide_eq_true_eq]
  have hblock : 0 < blockSize := by decide
  split <;> omega

variable {opts : ReaderOptions}

theorem physicalRound_toRead {r r' : Reader} (h : physicalRound opts r = .inl r') :
    r'.toRead < r.toRead := by
  rw [physicalRound] at h
  split at h
  · exact readMore_toRead h
  simp only at h
  split at h
  · split at h
    · have hlt := readMore_toRead h
      exact hlt
    · split at h <;> exact nomatch h
  · exact nomatch h

def readPhysicalRecord (opts : ReaderOptions) (r : Reader) : Physical :=
  match _hround : physicalRound opts r with
  | .inl r' => readPhysicalRecord opts r'
  | .inr p => p
termination_by r.toRead
decreasing_by exact physicalRound_toRead _hround

theorem readPhysicalRecord_of_inl {r r' : Reader} (h : physicalRound opts r = .inl r') :
    readPhysicalRecord opts r = readPhysicalRecord opts r' := by
  rw [readPhysicalRecord]
  split
  · rename_i r'' h'
    rw [h, Sum.inl.injEq] at h'
    rw [h']
  · rename_i p h'
    rw [h] at h'
    exact nomatch h'

theorem readPhysicalRecord_of_inr {r : Reader} {p : Physical} (h : physicalRound opts r = .inr p) :
    readPhysicalRecord opts r = p := by
  rw [readPhysicalRecord]
  split
  · rename_i r'' h'
    rw [h] at h'
    exact nomatch h'
  · rename_i p' h'
    rw [h, Sum.inr.injEq] at h'
    exact h'.symm

/-! ## Records -/

/-- The state of the loop of `ReadRecord`, with what was reported so far. -/
structure RecordState where
  reader : Reader
  inFragmentedRecord : Bool := false
  scratch : List UInt8 := []
  reports : List (Nat × String) := []
  deriving DecidableEq, Repr

/-- The outcome of `ReadRecord`; no record stands for `false`. -/
structure ReadResult where
  record : Option (List UInt8)
  reader : Reader
  reports : List (Nat × String)
  deriving DecidableEq, Repr

def RecordState.report (s : RecordState) (cond : Bool) (bytes : Nat) (reason : String) :
    RecordState :=
  if cond then { s with reports := s.reports ++ [(bytes, reason)] } else s

/-- The end of the file, or what is taken for it. -/
def endOfLog (mode : WALRecoveryMode) (s : RecordState) : ReadResult :=
  let s := s.report (s.inFragmentedRecord && decide (mode = .absoluteConsistency))
    s.scratch.length "error reading trailing data"
  { record := none, reader := s.reader, reports := s.reports }

/-- A physical record that cannot be used ends the record it is in. -/
def dropFragment (s : RecordState) : RecordState :=
  let s := s.report s.inFragmentedRecord s.scratch.length "error in middle of record"
  { s with inFragmentedRecord := false
           scratch := if s.inFragmentedRecord then [] else s.scratch }

/-- A round of the loop of `ReadRecord`. -/
def recordRound (opts : ReaderOptions) (mode : WALRecoveryMode) (s : RecordState) :
    RecordState ⊕ ReadResult :=
  let p := readPhysicalRecord opts s.reader
  let s := { s with reader := p.reader }
  match p.code with
  | .full =>
    let s := s.report (s.inFragmentedRecord && !s.scratch.isEmpty) s.scratch.length
      "partial record without end(1)"
    .inr { record := some p.fragment, reader := s.reader, reports := s.reports }
  | .first =>
    let s := s.report (s.inFragmentedRecord && !s.scratch.isEmpty) s.scratch.length
      "partial record without end(2)"
    .inl { s with inFragmentedRecord := true, scratch := p.fragment }
  | .middle =>
    if s.inFragmentedRecord then .inl { s with scratch := s.scratch ++ p.fragment }
    else .inl (s.report true p.fragment.length "missing start of fragmented record(1)")
  | .last =>
    if s.inFragmentedRecord then
      .inr { record := some (s.scratch ++ p.fragment), reader := s.reader, reports := s.reports }
    else .inl (s.report true p.fragment.length "missing start of fragmented record(2)")
  | .badHeader =>
    .inr (endOfLog mode
      (s.report (decide (mode = .absoluteConsistency)) p.dropSize "truncated header"))
  | .eof => .inr (endOfLog mode s)
  | .oldRecord =>
    if mode = .skipAnyCorruptedRecords then .inl (dropFragment s) else .inr (endOfLog mode s)
  | .badRecord => .inl (dropFragment s)
  | .badRecordLen =>
    if s.reader.recycled = true ∧ mode = .tolerateCorruptedTailRecords then
      .inr { record := none, reader := s.reader, reports := s.reports }
    else .inl (dropFragment (s.report true p.dropSize "bad record length"))
  | .badRecordChecksum =>
    if s.reader.recycled = true ∧ mode = .tolerateCorruptedTailRecords then
      .inr { record := none, reader := s.reader, reports := s.reports }
    else .inl (dropFragment (s.report true p.dropSize "checksum mismatch"))
  | .unknown type =>
    let s := s.report true
      (p.fragment.length + if s.inFragmentedRecord then s.scratch.length else 0)
      ("unknown record type " ++ toString type)
    .inl { s with inFragmentedRecord := false, scratch := [] }

/-- `ReadRecord`; `none` when the rounds do not suffice. -/
def readRecord (opts : ReaderOptions) (mode : WALRecoveryMode) (fuel : Nat) (r : Reader) :
    Option ReadResult :=
  WhileLoop.run (recordRound opts mode) fuel { reader := r }

/-- Calls of `ReadRecord` until it returns false: the records and the reports. -/
def readLog (opts : ReaderOptions) (mode : WALRecoveryMode) :
    Nat → Reader → Option (List (List UInt8) × List (Nat × String))
  | 0, _ => none
  | fuel + 1, r =>
    match readRecord opts mode (fuel + 1) r with
    | none => none
    | some res =>
      match res.record with
      | none => some ([], res.reports)
      | some x =>
        (readLog opts mode fuel res.reader).map
          (fun rest => (x :: rest.1, res.reports ++ rest.2))

end LogReader
