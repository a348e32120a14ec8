import MatrixKV.LogRoundTripProofs

/-! # What a reader gets from a log — whole files and files cut off

    A log is written by `AddRecord` and read by `ReadRecord` until it returns false.

    * `reads_records` — a file that is cut after `m` bytes gives the records that end
      within them.
    * `round_trip_iff` — a whole file gives all of its records, as long as the number of
      a log whose headers hold it fits 32 bits.
    * `cut_reads_complete` — a file cut anywhere. -/

namespace LogRecovery

open List FixedCoding LogWriter LogReader LogRoundTrip

/-! ## Calls of ReadRecord -/

/-- Enough rounds read the records and the reports `out`. -/
def Reads (opts : ReaderOptions) (mode : WALRecoveryMode) (r : Reader)
    (out : List (List UInt8) × List (Nat × String)) : Prop :=
  ∃ fuel, ∀ n, fuel ≤ n → readLog opts mode n r = some out

section Calls

variable {opts : ReaderOptions} {mode : WALRecoveryMode} {r r' : Reader}

/-- Rounds that suffice for `ReadRecord` suffice for the first step of `readLog`. -/
theorem readRecord_of_run {fuel n : Nat} {res : ReadResult}
    (hres : WhileLoop.run (recordRound opts mode) fuel { reader := r } = some res)
    (hn : fuel ≤ n) : readRecord opts mode n r = some res :=
  WhileLoop.run_mono hn hres

theorem Reads.none {reports : List (Nat × String)}
    (h : WhileLoop.Returns (recordRound opts mode) { reader := r } ⟨none, r', reports⟩) :
    Reads opts mode r ([], reports) := by
  obtain ⟨fuel, hfuel⟩ := h
  refine ⟨fuel + 1, fun n hn => ?_⟩
  cases n with
  | zero => exact nomatch hn
  | succ n => simp only [readLog, readRecord_of_run hfuel (Nat.le_of_succ_le hn)]

theorem Reads.cons {x : List UInt8} {xs : List (List UInt8)}
    {reports reports' : List (Nat × String)}
    (h : WhileLoop.Returns (recordRound opts mode) { reader := r } ⟨some x, r', reports⟩)
    (hrest : Reads opts mode r' (xs, reports')) :
    Reads opts mode r (x :: xs, reports ++ reports') := by
  obtain ⟨fuel, hfuel⟩ := h
  obtain ⟨fuel', hfuel'⟩ := hrest
  refine ⟨max fuel fuel' + 1, fun n hn => ?_⟩
  cases n with
  | zero => exact nomatch hn
  | succ n =>
    simp only [readLog, readRecord_of_run (n := n + 1) hfuel (by omega), hfuel' n (by omega),
      Option.map_some]

theorem Reads.unique {out out' : List (List UInt8) × List (Nat × String)}
    (h : Reads opts mode r out) (h' : Reads opts mode r out') : out = out' := by
  obtain ⟨n, hn⟩ := h
  obtain ⟨m, hm⟩ := h'
  exact Option.some.inj
    ((hn _ (Nat.le_max_left n m)).symm.trans (hm _ (Nat.le_max_right n m)))

/-- What is read begins with what the first `ReadRecord` returns. -/
theorem Reads.returns {out : List (List UInt8) × List (Nat × String)}
    (h : Reads opts mode r out) :
    ∃ res, WhileLoop.Returns (recordRound opts mode) { reader := r } res := by
  obtain ⟨fuel, hfuel⟩ := h
  have hread := hfuel (fuel + 1) (Nat.le_succ fuel)
  rw [readLog] at hread
  cases hrec : readRecord opts mode (fuel + 1) r with
  | none =>
    rw [hrec] at hread
    exact nomatch hread
  | some res => exact ⟨res, fuel + 1, hrec⟩

end Calls

/-! ## The records of a file -/

/-- The records, each with the position in the file at which its last fragment ends. -/
def recordEnds (w : Writer) : Nat → Nat → List (List UInt8) → List (List UInt8 × Nat)
  | _, _, [] => []
  | o, pos, x :: xs =>
    (x, pos + (addRecord w o x).1.length) ::
      recordEnds w (addRecord w o x).2 (pos + (addRecord w o x).1.length) xs

/-- The records whose last fragment lies in the first `m` bytes of the file. -/
def completeRecords (w : Writer) (records : List (List UInt8)) (m : Nat) : List (List UInt8) :=
  ((recordEnds w 0 0 records).filter (fun e => e.2 ≤ m)).map Prod.fst

theorem map_fst_recordEnds (w : Writer) (records : List (List UInt8)) (o) (pos) :
    (recordEnds w o pos records).map Prod.fst = records := by
  induction records generalizing o pos with
  | nil => rfl
  | cons x xs ih =>
    rw [recordEnds, map_cons, ih]

/-- The records follow one another. -/
theorem le_of_mem_recordEnds (w : Writer) (records : List (List UInt8)) :
    ∀ o pos, ∀ e ∈ recordEnds w o pos records,
      pos ≤ e.2 ∧ e.2 ≤ pos + (writeRecords w o records).length := by
  induction records with
  | nil => intro o pos e he; exact nomatch he
  | cons x xs ih =>
  intro o pos e he
  rw [writeRecords, length_append]
  rcases mem_cons.mp he with rfl | he
  · exact ⟨Nat.le_add_right _ _, by show pos + _ ≤ _; omega⟩
  · obtain ⟨hlow, hhigh⟩ := ih _ _ e he
    exact ⟨by omega, by omega⟩

theorem completeRecords_of_le {w : Writer} {records : List (List UInt8)} {m : Nat}
    (h : (writeLog w records).length ≤ m) : completeRecords w records m = records := by
  have hall : ∀ e ∈ recordEnds w 0 0 records, decide (e.2 ≤ m) = true := by
    intro e he
    have hle := (le_of_mem_recordEnds w records 0 0 e he).2
    rw [writeLog] at h
    exact decide_eq_true (by omega)
  rw [completeRecords, filter_eq_self.mpr hall, map_fst_recordEnds]

section Log

variable {w : Writer} {opts : ReaderOptions} {mode : WALRecoveryMode}

/-- **A CUT LOG**, from any place in a block on. -/
theorem reads_records
    (hnum : w.recycleLogFiles = false ∨ w.logNumber.toNat % 2 ^ 32 = opts.logNumber.toNat)
    (records : List (List UInt8)) (r : Reader) (o pos m : Nat)
    (hcut : (writeRecords w o records).length ≤ m ∨ mode ≠ .absoluteConsistency)
    (h : Aligned r o ((writeRecords w o records).take m)) :
    Reads opts mode r
      (((recordEnds w o pos records).filter (fun e => e.2 ≤ pos + m)).map Prod.fst, []) := by
  induction records generalizing r o pos m with
  | nil =>
    rw [writeRecords, take_nil] at h
    exact Reads.none (WhileLoop.Returns.exit (round_eof h.read_end rfl))
  | cons x xs ih =>
  rw [writeRecords, length_append] at hcut
  rw [writeRecords] at h
  obtain ⟨hdone, hend⟩ := returns_loop mode hnum
    (writeRecords w (addRecord w o x).2 xs) o x true { reader := r } m rfl
    (fun h => by cases h) h
  by_cases hm : (addRecord w o x).1.length ≤ m
  · -- the record is complete, and the rest is read from where it ends
    obtain ⟨r', hret, hr'⟩ := hdone hm
    have hrest := ih r' (addRecord w o x).2 (pos + (addRecord w o x).1.length)
      (m - (addRecord w o x).1.length) (hcut.imp_left (fun h => by omega)) hr'
    rw [Nat.add_assoc, Nat.add_sub_cancel' hm] at hrest
    rw [recordEnds, filter_cons, if_pos (decide_eq_true (Nat.add_le_add_left hm pos))]
    exact Reads.cons hret hrest
  -- no record ends in what is left
  have hnone : ∀ e ∈ recordEnds w o pos (x :: xs), ¬ decide (e.2 ≤ pos + m) = true := by
    intro e he
    rw [decide_eq_true_eq]
    rcases mem_cons.mp he with rfl | he
    · show ¬ pos + _ ≤ pos + m
      omega
    · have hlow := (le_of_mem_recordEnds w xs _ _ e he).1
      omega
  obtain ⟨r', hret⟩ := hend (Nat.lt_of_not_le hm)
    (hcut.resolve_left (fun h => hm (by omega)))
  rw [filter_eq_nil_iff.mpr hnone]
  exact Reads.none hret

theorem switchBlock_blockSize (w : Writer) : switchBlock w blockSize = switchBlock w 0 := by
  rcases headerSize_cases w with h | h <;> simp only [switchBlock, h] <;> rfl

/-- The end of a block and the start of the next one are the same place. -/
theorem addRecord_blockSize (w : Writer) (x : List UInt8) :
    addRecord w blockSize x = addRecord w 0 x := by
  have hlen : ∀ n, fragmentLength w blockSize n = fragmentLength w 0 n := by
    intro n
    rw [fragmentLength, fragmentLength, avail, avail, switchBlock_blockSize]
  have hnext : ∀ n, nextOffset w blockSize n = nextOffset w 0 n := by
    intro n
    rw [nextOffset, nextOffset, hlen, switchBlock_blockSize]
  rw [addRecord, addRecord]
  rcases Nat.lt_or_eq_of_le (fragmentLength_le w 0 x.length) with h | h
  · rw [addRecordLoop_of_lt h, addRecordLoop_of_lt ((hlen _).symm ▸ h), hlen, switchBlock_blockSize]
  · rw [addRecordLoop_of_eq h, addRecordLoop_of_eq ((hlen _).trans h), hnext, switchBlock_blockSize]

/-- The writer of a new file begins at offset 0, the reader before the first block. -/
theorem writeRecords_blockSize (w : Writer) (records : List (List UInt8)) :
    writeRecords w blockSize records = writeLog w records := by
  cases records with
  | nil => rfl
  | cons x xs => rw [writeLog, writeRecords, writeRecords, addRecord_blockSize]

theorem recordEnds_blockSize (w : Writer) (pos : Nat) (records : List (List UInt8)) :
    recordEnds w blockSize pos records = recordEnds w 0 pos records := by
  cases records with
  | nil => rfl
  | cons x xs => rw [recordEnds, recordEnds, addRecord_blockSize]

/-- A file cut after `m` bytes, read from its start. -/
theorem reads_cut (opts : ReaderOptions) (mode : WALRecoveryMode)
    (hnum : w.recycleLogFiles = false ∨ w.logNumber.toNat % 2 ^ 32 = opts.logNumber.toNat)
    (records : List (List UInt8)) {m : Nat}
    (hcut : (writeLog w records).length ≤ m ∨ mode ≠ .absoluteConsistency) :
    Reads opts mode { file := (writeLog w records).take m }
      (completeRecords w records m, []) := by
  rw [← writeRecords_blockSize] at hcut ⊢
  have hreads := reads_records hnum records _ blockSize 0 m hcut (aligned_open _)
  rw [recordEnds_blockSize, Nat.zero_add] at hreads
  exact hreads

/-! ## The number of the log -/

/-- The buffer begins with the header of a record of another log. -/
structure OldHeader (opts : ReaderOptions) (buffer : List UInt8) : Prop where
  length : recyclableHeaderSize ≤ buffer.length
  type : RecordType.recyclableFull.code ≤ charToUnsigned (buffer.getD 6 0) ∧
    charToUnsigned (buffer.getD 6 0) ≤ RecordType.recyclableLast.code
  number : decodeFixed ((buffer.drop 7).take 4) ≠ opts.logNumber.toNat

/-- Such a header is not passed over: the buffer stays as it is. -/
theorem OldHeader.physicalRound {r : Reader} (h : OldHeader opts r.buffer) :
    ∃ r', physicalRound opts r = .inr { code := .oldRecord, reader := r' } ∧
      r'.buffer = r.buffer := by
  have hlen := h.length
  rw [recyclableHeaderSize] at hlen
  rw [LogReader.physicalRound, if_neg (by rw [LogWriter.headerSize]; omega)]
  simp only
  rw [if_pos h.type, if_neg (by rw [recyclableHeaderSize]; omega), if_pos h.number]
  exact ⟨_, rfl, rfl⟩

/-- A reader that skips corrupted records meets the same header again. -/
theorem OldHeader.round_skip {s : RecordState} (h : OldHeader opts s.reader.buffer) :
    ∃ s', recordRound opts .skipAnyCorruptedRecords s = .inl s' ∧
      OldHeader opts s'.reader.buffer := by
  obtain ⟨r', hround, hbuf⟩ := h.physicalRound
  simp only [recordRound, readPhysicalRecord_of_inr hround, if_true]
  refine ⟨_, rfl, ?_⟩
  cases hs : s.inFragmentedRecord <;> simpa [dropFragment, RecordState.report, hs, hbuf] using h

/-- For the others the log ends there. -/
theorem OldHeader.round_end {s : RecordState} (h : OldHeader opts s.reader.buffer)
    (hs : s.inFragmentedRecord = false) (hmode : mode ≠ .skipAnyCorruptedRecords) :
    ∃ r', recordRound opts mode s = .inr ⟨none, r', s.reports⟩ := by
  obtain ⟨r', hround, _⟩ := h.physicalRound
  refine ⟨r', ?_⟩
  simp only [recordRound, readPhysicalRecord_of_inr hround, if_neg hmode, endOfLog,
    RecordState.report, hs, Bool.false_and, Bool.false_eq_true, if_false]

theorem switchBlock_zero (w : Writer) : switchBlock w 0 = ([], 0) := by
  rcases headerSize_cases w with h | h <;> simp only [switchBlock, h] <;> rfl

/-- A log begins with a physical record. -/
theorem writeLog_cons (w : Writer) (x : List UInt8) (xs : List (List UInt8)) :
    ∃ isEnd payload more,
      writeLog w (x :: xs) = emitPhysicalRecord w (recordType w true isEnd) payload ++ more ∧
      headerOf (recordType w true isEnd) + payload.length ≤ blockSize := by
  have hroom := fun isEnd => fragment_room w 0 x.length true isEnd
  rw [switchBlock_zero, Nat.sub_zero] at hroom
  rw [writeLog, writeRecords, addRecord]
  rcases Nat.lt_or_eq_of_le (fragmentLength_le w 0 x.length) with h | h
  · rw [addRecordLoop_of_lt h, switchBlock_zero, nil_append, append_assoc]
    refine ⟨false, x.take (fragmentLength w 0 x.length), _, rfl, ?_⟩
    rw [length_take, Nat.min_eq_left h.le]
    exact hroom false
  · have hend := hroom true
    rw [h] at hend
    rw [addRecordLoop_of_eq h, switchBlock_zero, nil_append]
    exact ⟨true, x, _, rfl, hend⟩

theorem recyclable_recordType (hrecycle : w.recycleLogFiles = true) (isBegin isEnd : Bool) :
    ¬ (recordType w isBegin isEnd).code < RecordType.recyclableFull.code := by
  obtain ⟨n, recycle⟩ := w
  cases hrecycle
  cases isBegin <;> cases isEnd <;> simp [recordType, RecordType.code]

/-- The first block of a log whose number does not fit its headers. -/
theorem oldHeader_first (hrecycle : w.recycleLogFiles = true)
    (hnum : w.logNumber.toNat % 2 ^ 32 ≠ opts.logNumber.toNat)
    (x : List UInt8) (xs : List (List UInt8)) :
    ∃ r, physicalRound opts { file := writeLog w (x :: xs) } = .inl r ∧
      OldHeader opts r.buffer := by
  obtain ⟨isEnd, payload, more, hlog, hroom⟩ := writeLog_cons w x xs
  have ht := recyclable_recordType hrecycle true isEnd
  have hheader : headerOf (recordType w true isEnd) = recyclableHeaderSize := if_neg ht
  obtain ⟨r, hmore, hr⟩ := (aligned_open (writeLog w (x :: xs))).more rfl
  have hround : physicalRound opts { file := writeLog w (x :: xs) } = .inl r := by
    refine (physicalRound_eq_readMore ?_).trans hmore
    show 0 < 7
    decide
  refine ⟨r, hround, ?_⟩
  rw [Nat.sub_self, drop_zero, hlog] at hr
  obtain ⟨b, hbuf, _⟩ := hr.buffer_eq (by rw [length_emit]; exact hroom)
  have htype : charToUnsigned (r.buffer.getD 6 0) = (recordType w true isEnd).code := by
    rw [hbuf]
    exact charToUnsigned_code _
  refine ⟨?_, ?_, ?_⟩
  · rw [hbuf, length_append, length_emit, hheader, Nat.add_assoc]
    exact Nat.le_add_right _ _
  · rw [htype]
    exact recyclable_range.mpr ht
  · rw [hbuf, number_emit ht]
    exact hnum

/-- **ANOTHER NUMBER**: the log reads as an empty one, or reading it does not end. -/
theorem reads_old (mode : WALRecoveryMode) (w : Writer) (opts : ReaderOptions)
    (hrecycle : w.recycleLogFiles = true)
    (hnum : w.logNumber.toNat % 2 ^ 32 ≠ opts.logNumber.toNat)
    (x : List UInt8) (xs : List (List UInt8)) :
    (mode ≠ .skipAnyCorruptedRecords →
      Reads opts mode { file := writeLog w (x :: xs) } ([], [])) ∧
    ∀ out, ¬ Reads opts .skipAnyCorruptedRecords { file := writeLog w (x :: xs) } out := by
  obtain ⟨r, hround, hold⟩ := oldHeader_first hrecycle hnum x xs
  have hfirst : ∀ mode, recordRound opts mode { reader := { file := writeLog w (x :: xs) } }
      = recordRound opts mode { reader := r } := fun _ => round_congr (s := ⟨_, _, _, _⟩) hround
  constructor
  · intro hmode
    obtain ⟨r', hend⟩ := OldHeader.round_end (s := { reader := r }) hold rfl hmode
    exact Reads.none (WhileLoop.Returns.exit ((hfirst mode).trans hend))
  intro out hreads
  obtain ⟨res, hres⟩ := hreads.returns
  refine WhileLoop.not_returns (fun s => OldHeader opts s.reader.buffer)
    (fun s hs => hs.round_skip) { reader := r } hold (returns_congr ?_ hres)
  exact (hfirst _).symm

end Log

/-! ## Main results -/

/-- **THE LOG ROUND TRIPS** exactly when its headers hold its number: the recyclable
    format keeps 32 bits of it, and the reader compares all 64. -/
theorem round_trip_iff (logNumber : UInt64) (recycleLogFiles checksum : Bool)
    (mode : WALRecoveryMode) (records : List (List UInt8)) :
    Reads ⟨checksum, logNumber⟩ mode { file := writeLog ⟨logNumber, recycleLogFiles⟩ records }
        (records, []) ↔
      recycleLogFiles = false ∨ logNumber.toNat < 2 ^ 32 ∨ records = [] := by
  constructor
  · intro hreads
    by_contra hnot
    rw [not_or, not_or, Nat.not_lt] at hnot
    obtain ⟨hrecycle, hbig, hne⟩ := hnot
    have hnum : logNumber.toNat % 2 ^ 32 ≠ logNumber.toNat := by
      have hlt := Nat.mod_lt logNumber.toNat (show 2 ^ 32 > 0 by decide)
      omega
    obtain ⟨x, xs, rfl⟩ := exists_cons_of_ne_nil hne
    obtain ⟨hempty, hloop⟩ := reads_old mode ⟨logNumber, recycleLogFiles⟩
      ⟨checksum, logNumber⟩ (Bool.eq_true_of_not_eq_false hrecycle) hnum x xs
    by_cases hmode : mode = .skipAnyCorruptedRecords
    · subst hmode
      exact hloop _ hreads
    · exact nomatch congrArg Prod.fst (hreads.unique (hempty hmode))
  · intro hcases
    rcases or_assoc.mpr hcases with hnum | rfl
    · have hreads := reads_cut (w := ⟨logNumber, recycleLogFiles⟩) ⟨checksum, logNumber⟩ mode
        (hnum.imp_right Nat.mod_eq_of_lt) records (.inl le_rfl)
      rw [take_length, completeRecords_of_le le_rfl] at hreads
      exact hreads
    · have hend : Aligned { file := [] } blockSize [] := aligned_open []
      exact Reads.none (WhileLoop.Returns.exit (round_eof hend.read_end rfl))

/-- A log with the number 2^32 in the recyclable format is read as an empty one; a reader
    that skips corrupted records does not come to an end. -/
theorem large_number_reads_empty :
    Reads ⟨true, 4294967296⟩ .pointInTimeRecovery
      { file := writeLog ⟨4294967296, true⟩ [[97]] } ([], []) ∧
    ∀ out, ¬ Reads ⟨true, 4294967296⟩ .skipAnyCorruptedRecords
      { file := writeLog ⟨4294967296, true⟩ [[97]] } out := by
  obtain ⟨hempty, hloop⟩ := reads_old .pointInTimeRecovery ⟨4294967296, true⟩
    ⟨true, 4294967296⟩ rfl (by decide) [97] []
  exact ⟨hempty (by decide), hloop⟩

/-- **A CUT LOG GIVES A BEGINNING OF ITS RECORDS**: those that lie in it to their end. -/
theorem cut_reads_complete (logNumber : UInt64) (recycleLogFiles checksum : Bool)
    (mode : WALRecoveryMode) (records : List (List UInt8)) (m : Nat)
    (hnumber : logNumber.toNat < 2 ^ 32) (hmode : mode ≠ .absoluteConsistency) :
    Reads ⟨checksum, logNumber⟩ mode
      { file := (writeLog ⟨logNumber, recycleLogFiles⟩ records).take m }
      (completeRecords ⟨logNumber, recycleLogFiles⟩ records m, []) :=
  reads_cut _ mode (.inr (Nat.mod_eq_of_lt hnumber)) records (.inr hmode)

/-- Two records of a recyclable log, cut in the second one. -/
theorem cut_reads_complete_first :
    completeRecords ⟨7, true⟩ [[1], [2, 3]] 20 = [[1]] ∧
    Reads ⟨true, 7⟩ .pointInTimeRecovery { file := (writeLog ⟨7, true⟩ [[1], [2, 3]]).take 20 }
      (completeRecords ⟨7, true⟩ [[1], [2, 3]] 20, []) := by
  refine ⟨?_, cut_reads_complete 7 true true .pointInTimeRecovery [[1], [2, 3]] 20
    (by decide) (by decide)⟩
  rw [completeRecords, recordEnds, recordEnds, recordEnds, addRecord, addRecord,
    addRecordLoop_of_eq (by decide), addRecordLoop_of_eq (by decide)]
  decide

end LogRecovery
