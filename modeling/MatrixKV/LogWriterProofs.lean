import MatrixKV.Crc32cProofs
import MatrixKV.FixedCodingProofs

/-! # Writing the log — db/log_format.h and db/log_writer.cc

    A log is cut into blocks of 32 KB.  A record is written as one or more physical
    records, none of which crosses a block; what is left of a block that cannot hold
    a header is filled with zeros.

    * `addRecordLoop` is the loop of `AddRecord`.  It yields the appended bytes and
      the offset in the block it ends at.
    * `addRecordLoop_of_lt` — one round: the filling, one physical record, the rest, and
      `addRecordLoop_of_eq` — the last round. -/

namespace LogWriter

open FixedCoding

/-! ## The format -/

inductive RecordType
  | zero
  | full
  | first
  | middle
  | last
  | recyclableFull
  | recyclableFirst
  | recyclableMiddle
  | recyclableLast
  deriving DecidableEq, Repr

def RecordType.code : RecordType → Nat
  | zero => 0
  | full => 1
  | first => 2
  | middle => 3
  | last => 4
  | recyclableFull => 5
  | recyclableFirst => 6
  | recyclableMiddle => 7
  | recyclableLast => 8

def blockSize : Nat := 32768

/-- `kHeaderSize`: checksum, length and type. -/
def headerSize : Nat := 7

/-- `kRecyclableHeaderSize`: the log number as well. -/
def recyclableHeaderSize : Nat := 11

/-- What a `Writer` is made with. -/
structure Writer where
  logNumber : UInt64
  recycleLogFiles : Bool
  deriving DecidableEq, Repr

def Writer.headerSize (w : Writer) : Nat :=
  if w.recycleLogFiles then recyclableHeaderSize else LogWriter.headerSize

/-- The low 32 bits of the log number. -/
def Writer.numberBytes (w : Writer) : List UInt8 := encodeFixed 4 (w.logNumber.toNat % 2 ^ 32)

/-! ## The writer -/

/-- What lies between type and payload. -/
def extraHeader (w : Writer) (t : RecordType) : List UInt8 :=
  if t.code < RecordType.recyclableFull.code then [] else w.numberBytes

/-- The stored checksum: of the type, the log number and the payload. -/
def recordCrc (w : Writer) (t : RecordType) (payload : List UInt8) : UInt32 :=
  let crc := Crc32c.value [UInt8.ofNat t.code]
  let crc :=
    if t.code < RecordType.recyclableFull.code then crc
    else Crc32c.extend crc w.numberBytes
  Crc32c.mask (Crc32c.extend crc payload)

def emitPhysicalRecord (w : Writer) (t : RecordType) (payload : List UInt8) : List UInt8 :=
  encodeFixed 4 (recordCrc w t payload).toNat ++
    (UInt8.ofNat (payload.length % 256) :: UInt8.ofNat (payload.length / 256) ::
      UInt8.ofNat t.code :: (extraHeader w t ++ payload))

/-- The start of a round: a block that cannot hold a header is filled up. -/
def switchBlock (w : Writer) (blockOffset : Nat) : List UInt8 × Nat :=
  let leftover := blockSize - blockOffset
  if leftover < w.headerSize then (List.replicate leftover 0, 0) else ([], blockOffset)

def recordType (w : Writer) (isBegin isEnd : Bool) : RecordType :=
  if isBegin && isEnd then if w.recycleLogFiles then .recyclableFull else .full
  else if isBegin then if w.recycleLogFiles then .recyclableFirst else .first
  else if isEnd then if w.recycleLogFiles then .recyclableLast else .last
  else if w.recycleLogFiles then .recyclableMiddle else .middle

/-- The room for payload in the block of a round. -/
def avail (w : Writer) (blockOffset : Nat) : Nat :=
  blockSize - (switchBlock w blockOffset).2 - w.headerSize

/-- The length of the fragment of a round. -/
def fragmentLength (w : Writer) (blockOffset left : Nat) : Nat :=
  if left < avail w blockOffset then left else avail w blockOffset

/-- The offset in the block after a round. -/
def nextOffset (w : Writer) (blockOffset left : Nat) : Nat :=
  (switchBlock w blockOffset).2 + w.headerSize + fragmentLength w blockOffset left

theorem headerSize_cases (w : Writer) : w.headerSize = 7 ∨ w.headerSize = 11 := by
  rw [Writer.headerSize]
  split
  · exact .inr rfl
  · exact .inl rfl

theorem switchBlock_le (w : Writer) (o : Nat) : (switchBlock w o).2 + w.headerSize ≤ blockSize := by
  have hh := headerSize_cases w
  rw [switchBlock]
  split
  · show 0 + w.headerSize ≤ blockSize
    rw [blockSize]
    omega
  · rename_i h
    show o + w.headerSize ≤ blockSize
    omega

theorem fragmentLength_le (w : Writer) (o left : Nat) : fragmentLength w o left ≤ left := by
  rw [fragmentLength]
  split <;> omega

theorem fragmentLength_le_avail (w : Writer) (o left : Nat) :
    fragmentLength w o left ≤ avail w o := by
  rw [fragmentLength]
  split <;> omega

/-- A fragment that is not the last one fills its block. -/
theorem nextOffset_of_lt {w : Writer} {o left : Nat} (h : fragmentLength w o left < left) :
    nextOffset w o left = blockSize := by
  have hle := switchBlock_le w o
  have hlen : fragmentLength w o left = avail w o := by
    rw [fragmentLength] at h ⊢
    split
    · rename_i hlt
      rw [if_pos hlt] at h
      omega
    · rfl
  rw [nextOffset, hlen, avail]
  omega

/-- A new block has room for payload. -/
theorem avail_blockSize_pos (w : Writer) : 0 < avail w blockSize := by
  have hh := headerSize_cases w
  have hswitch : (switchBlock w blockSize).2 = 0 := by
    rw [switchBlock, Nat.sub_self, if_pos (by omega)]
  rw [avail, hswitch, blockSize]
  omega

/-- The loop of `AddRecord` on what is left of the slice. -/
def addRecordLoop (w : Writer) (blockOffset : Nat) (left : List UInt8) (isBegin : Bool) :
    List UInt8 × Nat :=
  let len := fragmentLength w blockOffset left.length
  let isEnd := decide (left.length = len)
  let physical := (switchBlock w blockOffset).1 ++
    emitPhysicalRecord w (recordType w isBegin isEnd) (left.take len)
  if _hmore : len < left.length then
    let rest := addRecordLoop w (nextOffset w blockOffset left.length) (left.drop len) false
    (physical ++ rest.1, rest.2)
  else (physical, nextOffset w blockOffset left.length)
termination_by left.length * 2 + (if avail w blockOffset = 0 then 1 else 0)
decreasing_by
  -- either some payload was written, or the next round starts a new block
  have hpos := avail_blockSize_pos w
  rw [nextOffset_of_lt _hmore, List.length_drop, if_neg (by omega)]
  have hlen : len = fragmentLength w blockOffset left.length := rfl
  rw [fragmentLength] at hlen
  split <;> split at hlen <;> omega

/-- A round that leaves something over. -/
theorem addRecordLoop_of_lt {w : Writer} {o : Nat} {left : List UInt8} {isBegin : Bool}
    (h : fragmentLength w o left.length < left.length) :
    addRecordLoop w o left isBegin =
      ((switchBlock w o).1 ++ (emitPhysicalRecord w (recordType w isBegin false)
          (left.take (fragmentLength w o left.length)) ++
        (addRecordLoop w blockSize (left.drop (fragmentLength w o left.length)) false).1),
        (addRecordLoop w blockSize (left.drop (fragmentLength w o left.length)) false).2) := by
  rw [addRecordLoop, dif_pos h, nextOffset_of_lt h, decide_eq_false (by omega)]
  simp only [List.append_assoc]

/-- The last round. -/
theorem addRecordLoop_of_eq {w : Writer} {o : Nat} {left : List UInt8} {isBegin : Bool}
    (h : fragmentLength w o left.length = left.length) :
    addRecordLoop w o left isBegin =
      ((switchBlock w o).1 ++ emitPhysicalRecord w (recordType w isBegin true) left,
        nextOffset w o left.length) := by
  rw [addRecordLoop, dif_neg (by omega), h, decide_eq_true rfl, List.take_length]

def addRecord (w : Writer) (blockOffset : Nat) (slice : List UInt8) : List UInt8 × Nat :=
  addRecordLoop w blockOffset slice true

def writeRecords (w : Writer) : Nat → List (List UInt8) → List UInt8
  | _, [] => []
  | o, x :: xs => (addRecord w o x).1 ++ writeRecords w (addRecord w o x).2 xs

/-- A new file after the records were added. -/
def writeLog (w : Writer) (records : List (List UInt8)) : List UInt8 := writeRecords w 0 records

end LogWriter
