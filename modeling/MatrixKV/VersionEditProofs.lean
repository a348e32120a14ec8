import MatrixKV.DbFormatProofs
import MatrixKV.FixedCodingProofs
import MatrixKV.VarintProofs

/-! # The manifest record — VersionEdit::EncodeTo and DecodeFrom

    A version edit is written as a sequence of tagged fields.  New files have four
    record formats, chosen by what there is to store; `min_log_number_to_keep_` has
    no field of its own and rides on the first new file.

    * `encodeTo` and `decodeFrom` follow db/version_edit.cc and util/coding.h field
      by field, over the source's machine words.
    * `Parses` — a part of an encoding takes the decoder from one edit to the next;
      the parts compose.
    * `FlagLayout` — the decoder stores the flag of an NVM file as four bytes at a
      `bool`; what lies behind it is the compiler's choice.
    * `decodeFrom_encodeTo` — with strings below 4 GB the edit comes back, but for a log
      number without a file and for what the store of the flag destroys.
    * `roundTrip_iff` — which edits come back. -/

namespace VersionEditCoding

open List ByteReader FixedCoding

/-! ## Words and strings — util/coding.h -/

/-- `EncodeVarint32`, unrolled as in the source; a byte keeps the low eight bits. -/
def encodeVarint32 (v : UInt32) : List UInt8 :=
  let n := v.toNat
  if n < 2 ^ 7 then [UInt8.ofNat n]
  else if n < 2 ^ 14 then [UInt8.ofNat (n ||| 128), UInt8.ofNat (n >>> 7)]
  else if n < 2 ^ 21 then
    [UInt8.ofNat (n ||| 128), UInt8.ofNat (n >>> 7 ||| 128), UInt8.ofNat (n >>> 14)]
  else if n < 2 ^ 28 then
    [UInt8.ofNat (n ||| 128), UInt8.ofNat (n >>> 7 ||| 128), UInt8.ofNat (n >>> 14 ||| 128),
      UInt8.ofNat (n >>> 21)]
  else
    [UInt8.ofNat (n ||| 128), UInt8.ofNat (n >>> 7 ||| 128), UInt8.ofNat (n >>> 14 ||| 128),
      UInt8.ofNat (n >>> 21 ||| 128), UInt8.ofNat (n >>> 28)]

def putVarint32 (v : UInt32) : List UInt8 := encodeVarint32 v

/-- `EncodeVarint64`, a loop of at most ten rounds. -/
def putVarint64 (v : UInt64) : List UInt8 := Varint.encode 9 v.toNat

/-- The length is cut to 32 bits. -/
def putLengthPrefixedSlice (value : List UInt8) : List UInt8 :=
  putVarint32 (UInt32.ofNat value.length) ++ value

def getVarint32 : Reader Unit UInt32 := do
  let v ← Varint.decode 32 5
  pure (UInt32.ofNat v)

def getVarint64 : Reader Unit UInt64 := do
  let v ← Varint.decode 64 10
  pure (UInt64.ofNat v)

def getLengthPrefixedSlice : Reader Unit (List UInt8) := do
  let len ← getVarint32
  take len.toNat

/-- `GetFixed64`: the first eight bytes. -/
def getFixed64 (field : List UInt8) : Option UInt64 :=
  if field.length < 8 then none else some (UInt64.ofNat (decodeFixed (field.take 8)))

/-! ## Keys and files -/

def isExtendedValueType (c : Nat) : Bool :=
  c ≤ DbFormat.ValueType.merge.code || c = DbFormat.ValueType.singleDeletion.code ||
    c = DbFormat.ValueType.blobIndex.code || c = DbFormat.ValueType.rangeDeletion.code

/-- `InternalKey::Valid`: the last eight bytes hold a known type. -/
def validKey (rep : List UInt8) : Bool :=
  8 ≤ rep.length && isExtendedValueType (decodeFixed (rep.drop (rep.length - 8)) % 256)

def fileNumberMask : UInt64 := 0x3FFFFFFFFFFFFFFF

def packFileNumberAndPathId (number pathId : UInt64) : UInt64 :=
  number ||| pathId * (fileNumberMask + 1)

/-- `FileDescriptor`: number and path id share a word. -/
structure FileDescriptor where
  packedNumberAndPathId : UInt64
  fileSize : UInt64
  smallestSeqno : UInt64
  largestSeqno : UInt64
  deriving DecidableEq

def FileDescriptor.new (number : UInt64) (pathId : UInt32)
    (fileSize smallestSeqno largestSeqno : UInt64) : FileDescriptor :=
  { packedNumberAndPathId := packFileNumberAndPathId number pathId.toUInt64
    fileSize := fileSize, smallestSeqno := smallestSeqno, largestSeqno := largestSeqno }

def FileDescriptor.getNumber (fd : FileDescriptor) : UInt64 :=
  fd.packedNumberAndPathId &&& fileNumberMask

def FileDescriptor.getPathId (fd : FileDescriptor) : UInt32 :=
  (fd.packedNumberAndPathId / (fileNumberMask + 1)).toUInt32

/-- `FileMetaData`, as far as it is written; keys as their bytes. -/
structure FileMetaData where
  fd : FileDescriptor
  smallest : List UInt8
  largest : List UInt8
  markedForCompaction : Bool := false
  isNvmLevel0 : Bool := false
  firstKeyIndex : UInt64 := 0
  nvmSstableIndex : Int32 := -1
  keysNum : UInt64 := 0
  keyPointFilenum : UInt64 := 0
  rawFileSize : UInt64 := 0
  nvmMetaSize : UInt64 := 0
  deriving DecidableEq

/-! ## The edit -/

/-- The order of `std::set<std::pair<int, uint64_t>>`. -/
def deletedKey (d : Int32 × UInt64) : Int ×ₗ Nat := toLex (d.1.toInt, d.2.toNat)

def insertDeleted (d : Int32 × UInt64) : List (Int32 × UInt64) → List (Int32 × UInt64)
  | [] => [d]
  | x :: xs =>
    if deletedKey d < deletedKey x then d :: x :: xs
    else if deletedKey x < deletedKey d then x :: insertDeleted d xs
    else x :: xs

variable {xs : List (Int32 × UInt64)}

theorem mem_insertDeleted {d x : Int32 × UInt64} (h : x ∈ insertDeleted d xs) : x = d ∨ x ∈ xs := by
  fun_induction insertDeleted d xs with
  | case1 => exact .inl (mem_singleton.mp h)
  | case2 => exact mem_cons.mp h
  | case3 y ys _ _ ih =>
    rcases mem_cons.mp h with rfl | h
    · exact .inr (.head _)
    · exact (ih h).imp_right (.tail y)
  | case4 => exact .inr h

theorem sorted_insertDeleted (d : Int32 × UInt64)
    (h : xs.Pairwise (fun a b => deletedKey a < deletedKey b)) :
    (insertDeleted d xs).Pairwise (fun a b => deletedKey a < deletedKey b) := by
  fun_induction insertDeleted d xs with
  | case1 => exact pairwise_singleton _ _
  | case2 x xs hlt =>
    have hx := (pairwise_cons.mp h).1
    exact pairwise_cons.mpr ⟨forall_mem_cons.mpr ⟨hlt, fun y hy => hlt.trans (hx y hy)⟩, h⟩
  | case3 x xs _ hlt ih =>
    obtain ⟨hx, hxs⟩ := pairwise_cons.mp h
    refine pairwise_cons.mpr ⟨?_, ih hxs⟩
    intro y hy
    rcases mem_insertDeleted hy with rfl | hy
    · exact hlt
    · exact hx y hy
  | case4 => exact h

/-- `DeletedFileSet`, in the order of its iteration. -/
@[ext] structure DeletedFileSet where
  files : List (Int32 × UInt64)
  sorted : files.Pairwise (fun a b => deletedKey a < deletedKey b)
  deriving DecidableEq

def DeletedFileSet.empty : DeletedFileSet := ⟨[], List.Pairwise.nil⟩

def DeletedFileSet.insert (s : DeletedFileSet) (d : Int32 × UInt64) : DeletedFileSet :=
  ⟨insertDeleted d s.files, sorted_insertDeleted d s.sorted⟩

/-- `VersionEdit`; a `has_` flag and its value are an option.  The defaults are
    those of `Clear`. -/
structure VersionEdit where
  comparator : Option (List UInt8) := none
  logNumber : Option UInt64 := none
  prevLogNumber : Option UInt64 := none
  nextFileNumber : Option UInt64 := none
  lastSequence : Option UInt64 := none
  maxColumnFamily : Option UInt32 := none
  minLogNumberToKeep : Option UInt64 := none
  deletedFiles : DeletedFileSet := .empty
  newFiles : List (Int32 × FileMetaData) := []
  columnFamily : UInt32 := 0
  /-- `is_column_family_add_` and `column_family_name_` -/
  columnFamilyAdd : Option (List UInt8) := none
  isColumnFamilyDrop : Bool := false
  /-- `is_in_atomic_group_` and `remaining_entries_` -/
  atomicGroup : Option UInt32 := none
  deriving DecidableEq

inductive Tag
  | comparator
  | logNumber
  | nextFileNumber
  | lastSequence
  | compactPointer
  | deletedFile
  | newFile
  | prevLogNumber
  | minLogNumberToKeep
  | newFile2
  | newFile3
  | newFile4
  | newFile5
  | columnFamily
  | columnFamilyAdd
  | columnFamilyDrop
  | maxColumnFamily
  | inAtomicGroup
  deriving DecidableEq, Repr

def Tag.code : Tag → UInt32
  | comparator => 1
  | logNumber => 2
  | nextFileNumber => 3
  | lastSequence => 4
  | compactPointer => 5
  | deletedFile => 6
  | newFile => 7
  | prevLogNumber => 9
  | minLogNumberToKeep => 10
  | newFile2 => 100
  | newFile3 => 102
  | newFile4 => 103
  | newFile5 => 104
  | columnFamily => 200
  | columnFamilyAdd => 201
  | columnFamilyDrop => 202
  | maxColumnFamily => 203
  | inAtomicGroup => 300

def Tag.all : List Tag :=
  [comparator, logNumber, nextFileNumber, lastSequence, compactPointer, deletedFile, newFile,
    prevLogNumber, minLogNumberToKeep, newFile2, newFile3, newFile4, newFile5, columnFamily,
    columnFamilyAdd, columnFamilyDrop, maxColumnFamily, inAtomicGroup]

/-- The `switch` on a tag; `none` is its `default`. -/
def Tag.ofCode (code : UInt32) : Option Tag := Tag.all.find? (fun t => t.code = code)

theorem Tag.ofCode_code (t : Tag) : Tag.ofCode t.code = some t := by
  cases t <;> rfl

inductive CustomTag
  | terminate
  | needCompaction
  | minLogNumberToKeepHack
  | pathId
  deriving DecidableEq, Repr

def CustomTag.code : CustomTag → UInt32
  | terminate => 1
  | needCompaction => 2
  | minLogNumberToKeepHack => 3
  | pathId => 65

/-- A field with this bit is not to be ignored. -/
def customTagNonSafeIgnoreMask : UInt32 := (1 : UInt32) <<< (6 : UInt32)

/-! ## Encoding -/

def putTag (t : Tag) : List UInt8 := putVarint32 t.code

/-- A field that is only written if it is there. -/
def putOption {α : Type} (t : Tag) (put : α → List UInt8) : Option α → List UInt8
  | none => []
  | some v => putTag t ++ put v

def putCustomField (t : CustomTag) (field : List UInt8) : List UInt8 :=
  putVarint32 t.code ++ putLengthPrefixedSlice field

/-- The log number is written once. -/
def putMinLog (minLog : Option UInt64) (minLogWritten : Bool) : List UInt8 :=
  match minLog, minLogWritten with
  | some n, false => putCustomField .minLogNumberToKeepHack (encodeFixed 8 n.toNat)
  | _, _ => []

/-- The customized fields of a new file. -/
def putCustomFields (f : FileMetaData) (minLog : Option UInt64) (minLogWritten : Bool) :
    List UInt8 :=
  (if f.fd.getPathId ≠ 0 ∧ f.isNvmLevel0 = false then
      putCustomField .pathId [f.fd.getPathId.toUInt8] else []) ++
  (if f.markedForCompaction then putCustomField .needCompaction [1] else []) ++
  putMinLog minLog minLogWritten ++
  putVarint32 CustomTag.terminate.code

/-- Size, keys and sequence numbers, the end of every new file record. -/
def putFileBounds (f : FileMetaData) : List UInt8 :=
  putVarint64 f.fd.fileSize ++ putLengthPrefixedSlice f.smallest ++
    putLengthPrefixedSlice f.largest ++ putVarint64 f.fd.smallestSeqno ++
    putVarint64 f.fd.largestSeqno

/-- The fields of an NVM file in front of its record. -/
def putNvmFields (f : FileMetaData) (hasCustomizedFields : Bool) : List UInt8 :=
  putVarint64 f.firstKeyIndex ++ putVarint32 f.nvmSstableIndex.toUInt32 ++
    putVarint64 f.keysNum ++ putVarint64 f.keyPointFilenum ++ putVarint64 f.rawFileSize ++
    putVarint64 f.nvmMetaSize ++ putVarint32 f.fd.getPathId ++
    putVarint32 (if hasCustomizedFields then 1 else 0)

/-- One round of the loop over the new files, for a file with valid keys. -/
def putNewFile (minLog : Option UInt64) (minLogWritten : Bool) (file : Int32 × FileMetaData) :
    List UInt8 :=
  let f := file.2
  let hasCustomizedFields := f.markedForCompaction || minLog.isSome
  (if f.isNvmLevel0 then putTag .newFile5 ++ putNvmFields f hasCustomizedFields
    else if hasCustomizedFields then putTag .newFile4
    else if f.fd.getPathId = 0 then putTag .newFile2
    else putTag .newFile3) ++
  putVarint32 file.1.toUInt32 ++ putVarint64 f.fd.getNumber ++
  (if f.fd.getPathId ≠ 0 ∧ hasCustomizedFields = false ∧ f.isNvmLevel0 = false then
      putVarint32 f.fd.getPathId else []) ++
  putFileBounds f ++
  (if hasCustomizedFields then putCustomFields f minLog minLogWritten else [])

/-- The loop over the new files; an invalid key ends the encoding. -/
def putNewFiles (minLog : Option UInt64) :
    Bool → List (Int32 × FileMetaData) → Option (List UInt8)
  | _, [] => some []
  | minLogWritten, file :: files =>
    if validKey file.2.smallest = false ∨ validKey file.2.largest = false then none
    else
      -- with a log number to write every file has customized fields
      (putNewFiles minLog (minLogWritten || minLog.isSome) files).map
        (putNewFile minLog minLogWritten file ++ ·)

def putDeletedFile (d : Int32 × UInt64) : List UInt8 :=
  putTag .deletedFile ++ putVarint32 d.1.toUInt32 ++ putVarint64 d.2

/-- `EncodeTo`: `none` when it returns false. -/
def encodeTo (e : VersionEdit) : Option (List UInt8) :=
  (putNewFiles e.minLogNumberToKeep false e.newFiles).map fun newFiles =>
    putOption .comparator putLengthPrefixedSlice e.comparator ++
    putOption .logNumber putVarint64 e.logNumber ++
    putOption .prevLogNumber putVarint64 e.prevLogNumber ++
    putOption .nextFileNumber putVarint64 e.nextFileNumber ++
    putOption .lastSequence putVarint64 e.lastSequence ++
    putOption .maxColumnFamily putVarint32 e.maxColumnFamily ++
    e.deletedFiles.files.flatMap putDeletedFile ++
    newFiles ++
    (if e.columnFamily ≠ 0 then putTag .columnFamily ++ putVarint32 e.columnFamily else []) ++
    putOption .columnFamilyAdd putLengthPrefixedSlice e.columnFamilyAdd ++
    (if e.isColumnFamilyDrop then putTag .columnFamilyDrop else []) ++
    putOption .inAtomicGroup putVarint32 e.atomicGroup

/-! ## Decoding -/

def getInternalKey : Reader Unit (List UInt8) := do
  let str ← getLengthPrefixedSlice
  if validKey str then pure str else Reader.fail ()

def getLevel : Reader Unit Int32 := do
  let v ← getVarint32
  pure v.toInt32

/-- What `putFileBounds` writes. -/
structure FileBounds where
  fileSize : UInt64
  smallest : List UInt8
  largest : List UInt8
  smallestSeqno : UInt64
  largestSeqno : UInt64

def getFileBounds : Reader Unit FileBounds := do
  let fileSize ← getVarint64
  let smallest ← getInternalKey
  let largest ← getInternalKey
  let smallestSeqno ← getVarint64
  let largestSeqno ← getVarint64
  pure ⟨fileSize, smallest, largest, smallestSeqno, largestSeqno⟩

/-- A file as its descriptor and keys give it, the rest as in a new object. -/
def FileBounds.file (b : FileBounds) (number : UInt64) (pathId : UInt32) : FileMetaData :=
  { fd := FileDescriptor.new number pathId b.fileSize b.smallestSeqno b.largestSeqno
    smallest := b.smallest, largest := b.largest }

/-- `kNewFile`: without sequence numbers. -/
def getNewFile : Reader Unit (Int32 × FileMetaData) := do
  let level ← getLevel
  let number ← getVarint64
  let fileSize ← getVarint64
  let smallest ← getInternalKey
  let largest ← getInternalKey
  pure (level, { fd := FileDescriptor.new number 0 fileSize
                         (UInt64.ofNat DbFormat.maxSequenceNumber) 0
                 smallest := smallest, largest := largest })

/-- Level, number and bounds of a new file. -/
structure FileHead where
  level : Int32
  number : UInt64
  bounds : FileBounds

def getFileHead : Reader Unit FileHead := do
  let level ← getLevel
  let number ← getVarint64
  let bounds ← getFileBounds
  pure ⟨level, number, bounds⟩

def getNewFile2 : Reader Unit (Int32 × FileMetaData) := do
  let head ← getFileHead
  pure (head.level, head.bounds.file head.number 0)

def getNewFile3 : Reader Unit (Int32 × FileMetaData) := do
  let level ← getLevel
  let number ← getVarint64
  let pathId ← getVarint32
  let bounds ← getFileBounds
  pure (level, bounds.file number pathId)

/-- What the loop over customized fields assigns. -/
structure CustomFields where
  pathId : UInt32 := 0
  markedForCompaction : Bool := false
  minLogNumberToKeep : Option UInt64

/-- The `switch` of the loop; the two formats differ in `kPathId`. -/
def customField (pathIdField : List UInt8 → Except String UInt32) (c : CustomFields)
    (code : UInt32) (field : List UInt8) : Except String CustomFields :=
  if code = CustomTag.pathId.code then
    (pathIdField field).map fun pathId => { c with pathId := pathId }
  else if code = CustomTag.needCompaction.code then
    if field.length ≠ 1 then .error "need_compaction field wrong size"
    else .ok { c with markedForCompaction := field = [1] }
  else if code = CustomTag.minLogNumberToKeepHack.code then
    match getFixed64 field with
    | none => .error "deleted log number malformatted"
    | some n => .ok { c with minLogNumberToKeep := some n }
  else if code &&& customTagNonSafeIgnoreMask ≠ 0 then
    .error "new-file4 custom field not supported"
  else .ok c

/-- `kPathId` in `DecodeNewFile4From`. -/
def newFile4PathId : List UInt8 → Except String UInt32
  | [p] => if p > 3 then .error "path_id wrong vaue" else .ok p.toUInt32
  | _ => .error "path_id field wrong size"

/-- `kPathId` in `DecodeNewFile5From`. -/
def newFile5PathId : List UInt8 → Except String UInt32 :=
  fun _ => .error "path_id field wrong "

def customRound (pathIdField : List UInt8 → Except String UInt32) (c : CustomFields) :
    Reader String (CustomFields ⊕ CustomFields) := do
  let code ← getVarint32.orFail "new-file4 custom field"
  if code = CustomTag.terminate.code then pure (.inr c)
  else
    let field ← getLengthPrefixedSlice.orFail "new-file4 custom field lenth prefixed slice error"
    match customField pathIdField c code field with
    | .error msg => Reader.fail msg
    | .ok c' => pure (.inl c')

/-- The loop over customized fields. -/
def getCustomFields (pathIdField : List UInt8 → Except String UInt32) (c : CustomFields) :
    Reader String CustomFields :=
  iterate (customRound pathIdField) "new-file4 custom field" c

def VersionEdit.addFile (e : VersionEdit) (file : Int32 × FileMetaData) : VersionEdit :=
  { e with newFiles := e.newFiles ++ [file] }

/-- The end of `DecodeNewFile4From`. -/
def VersionEdit.addFile4 (e : VersionEdit) (head : FileHead) (c : CustomFields) : VersionEdit :=
  { e with minLogNumberToKeep := c.minLogNumberToKeep }.addFile
    (head.level, { head.bounds.file head.number c.pathId with
      markedForCompaction := c.markedForCompaction })

def decodeNewFile4From (e : VersionEdit) : Reader String VersionEdit := do
  let head ← getFileHead.orFail "new-file4 entry"
  let c ← getCustomFields newFile4PathId { minLogNumberToKeep := e.minLogNumberToKeep }
  pure (e.addFile4 head c)

/-- The locals that `DecodeNewFile5From` reads in front of the flag. -/
structure NvmFields where
  firstKeyIndex : UInt64
  nvmSstableIndex : Int32
  keysNum : UInt64
  keyPointFilenum : UInt64
  rawFileSize : UInt64
  nvmMetaSize : UInt64
  pathId : UInt32

inductive NvmLocal where
  | firstKeyIndex | nvmSstableIndex | keysNum | keyPointFilenum | rawFileSize | nvmMetaSize | pathId

/-- The local that the compiler has put within three bytes behind the single byte of
    `has_customized_fields`: `some (x, c)` if the first `c + 1` bytes of `x` lie there.  There is
    room for one only; padding, and locals that are read after the flag, do not matter. -/
abbrev FlagLayout : Type := Option (NvmLocal × Fin 3)

/-- The word `v` with the last `c + 1` bytes of the flag over its first ones. -/
def overwritten (flag : UInt32) (c : Fin 3) (v : Nat) : Nat :=
  v - v % 256 ^ (c.val + 1) + flag.toNat / 256 ^ (3 - c.val)

/-- `GetVarint32(input, (uint32_t*)&has_customized_fields)` stores four bytes at the flag. -/
def NvmFields.storeFlag (flag : UInt32) (n : NvmFields) : FlagLayout → NvmFields
  | none => n
  | some (.firstKeyIndex, c) =>
    { n with firstKeyIndex := .ofNat (overwritten flag c n.firstKeyIndex.toNat) }
  | some (.nvmSstableIndex, c) =>
    { n with nvmSstableIndex :=
        (UInt32.ofNat (overwritten flag c n.nvmSstableIndex.toUInt32.toNat)).toInt32 }
  | some (.keysNum, c) => { n with keysNum := .ofNat (overwritten flag c n.keysNum.toNat) }
  | some (.keyPointFilenum, c) =>
    { n with keyPointFilenum := .ofNat (overwritten flag c n.keyPointFilenum.toNat) }
  | some (.rawFileSize, c) =>
    { n with rawFileSize := .ofNat (overwritten flag c n.rawFileSize.toNat) }
  | some (.nvmMetaSize, c) =>
    { n with nvmMetaSize := .ofNat (overwritten flag c n.nvmMetaSize.toNat) }
  | some (.pathId, c) => { n with pathId := .ofNat (overwritten flag c n.pathId.toNat) }

/-- The locals after the flag has been read, and the flag itself, the low byte. -/
def getNvmFields (layout : FlagLayout) : Reader Unit (NvmFields × Bool) := do
  let firstKeyIndex ← getVarint64
  let nvmSstableIndex ← getVarint32
  let keysNum ← getVarint64
  let keyPointFilenum ← getVarint64
  let rawFileSize ← getVarint64
  let nvmMetaSize ← getVarint64
  let pathId ← getVarint32
  let flag ← getVarint32
  pure (NvmFields.storeFlag flag ⟨firstKeyIndex, nvmSstableIndex.toInt32, keysNum,
    keyPointFilenum, rawFileSize, nvmMetaSize, pathId⟩ layout, flag.toNat % 256 ≠ 0)

/-- The file with its NVM fields. -/
def NvmFields.file (n : NvmFields) (f : FileMetaData) : FileMetaData :=
  { f with
    isNvmLevel0 := true, firstKeyIndex := n.firstKeyIndex, nvmSstableIndex := n.nvmSstableIndex
    keysNum := n.keysNum, keyPointFilenum := n.keyPointFilenum, rawFileSize := n.rawFileSize
    nvmMetaSize := n.nvmMetaSize }

/-- The customized fields of an NVM file, if it says that it has some. -/
def getNvmCustomFields (hasCustomizedFields : Bool) (c : CustomFields) :
    Reader String CustomFields :=
  if hasCustomizedFields then getCustomFields newFile5PathId c else pure c

/-- The end of `DecodeNewFile5From`. -/
def VersionEdit.addFile5 (e : VersionEdit) (nvm : NvmFields) (head : FileHead) (c : CustomFields) :
    VersionEdit :=
  { e with minLogNumberToKeep := c.minLogNumberToKeep }.addFile
    (head.level, nvm.file { head.bounds.file head.number nvm.pathId with
      markedForCompaction := c.markedForCompaction })

def decodeNewFile5From (layout : FlagLayout) (e : VersionEdit) : Reader String VersionEdit := do
  let (nvm, hasCustomizedFields) ← (getNvmFields layout).orFail "new-file5 entry"
  let head ← getFileHead.orFail "new-file5 entry"
  let c ← getNvmCustomFields hasCustomizedFields { minLogNumberToKeep := e.minLogNumberToKeep }
  pure (e.addFile5 nvm head c)

/-- The fields behind a tag. -/
def decodeField (layout : FlagLayout) (e : VersionEdit) : Tag → Reader String VersionEdit
  | .comparator => do
    let str ← getLengthPrefixedSlice.orFail "comparator name"
    pure { e with comparator := some str }
  | .logNumber => do
    let n ← getVarint64.orFail "log number"
    pure { e with logNumber := some n }
  | .prevLogNumber => do
    let n ← getVarint64.orFail "previous log number"
    pure { e with prevLogNumber := some n }
  | .nextFileNumber => do
    let n ← getVarint64.orFail "next file number"
    pure { e with nextFileNumber := some n }
  | .lastSequence => do
    let n ← getVarint64.orFail "last sequence number"
    pure { e with lastSequence := some n }
  | .maxColumnFamily => do
    let n ← getVarint32.orFail "max column family"
    pure { e with maxColumnFamily := some n }
  | .minLogNumberToKeep => do
    let n ← getVarint64.orFail "min log number to kee"
    pure { e with minLogNumberToKeep := some n }
  | .compactPointer => do
    let _ ← getLevel.orFail "compaction pointer"
    let _ ← getInternalKey.orFail "compaction pointer"
    pure e
  | .deletedFile => do
    let level ← getLevel.orFail "deleted file"
    let number ← getVarint64.orFail "deleted file"
    pure { e with deletedFiles := e.deletedFiles.insert (level, number) }
  | .newFile => do
    let file ← getNewFile.orFail "new-file entry"
    pure (e.addFile file)
  | .newFile2 => do
    let file ← getNewFile2.orFail "new-file2 entry"
    pure (e.addFile file)
  | .newFile3 => do
    let file ← getNewFile3.orFail "new-file3 entry"
    pure (e.addFile file)
  | .newFile4 => decodeNewFile4From e
  | .newFile5 => decodeNewFile5From layout e
  | .columnFamily => do
    let n ← getVarint32.orFail "set column family id"
    pure { e with columnFamily := n }
  | .columnFamilyAdd => do
    let str ← getLengthPrefixedSlice.orFail "column family add"
    pure { e with columnFamilyAdd := some str }
  | .columnFamilyDrop => pure { e with isColumnFamilyDrop := true }
  | .inAtomicGroup => do
    let n ← getVarint32.orFail "remaining entries"
    pure { e with atomicGroup := some n }

/-- One round of the loop of `DecodeFrom`: it ends where no tag can be read. -/
def decodeRound (layout : FlagLayout) (e : VersionEdit) :
    Reader String (VersionEdit ⊕ VersionEdit) := fun input =>
  match getVarint32 input with
  | .error _ => if input = [] then .ok (.inr e, input) else .error "invalid tag"
  | .ok (code, rest) =>
    match Tag.ofCode code with
    | none => .error "unknown tag"
    | some t => (do let e' ← decodeField layout e t; pure (Sum.inl e')) rest

/-- `DecodeFrom`: the message of the corruption, or the edit. -/
def decodeFrom (layout : FlagLayout) (src : List UInt8) : Except String VersionEdit :=
  (iterate (decodeRound layout) "unknown tag" {} src).map Prod.fst

/-! ## Words and strings come back -/

theorem ofNat_or_128 (n : Nat) : UInt8.ofNat (n ||| 128) = UInt8.ofNat (n % 128 + 128) := by
  have hbyte : ∀ x < 256, x ||| 128 = x % 128 + 128 := by decide +kernel
  refine UInt8.toNat_inj.mp ?_
  rw [UInt8.toNat_ofNat', UInt8.toNat_ofNat', Nat.or_mod_two_pow, hbyte _
    (Nat.mod_lt n (by decide))]
  omega

/-- The unrolled encoder does what the loop does. -/
theorem encodeVarint32_eq (v : UInt32) : encodeVarint32 v = Varint.encode 4 v.toNat := by
  simp only [encodeVarint32, Varint.encode, ofNat_or_128, Nat.shiftRight_eq_div_pow,
    Nat.div_div_eq_div_mul, Nat.reduceMul, Nat.reducePow]
  generalize v.toNat = n
  have e2 : n / 128 < 128 ↔ n < 16384 := by omega
  have e3 : n / 16384 < 128 ↔ n < 2097152 := by omega
  have e4 : n / 2097152 < 128 ↔ n < 268435456 := by omega
  simp only [e2, e3, e4]
  by_cases h1 : n < 128
  · rw [if_pos h1, if_pos h1]
  rw [if_neg h1, if_neg h1]
  by_cases h2 : n < 16384
  · rw [if_pos h2, if_pos h2]
  rw [if_neg h2, if_neg h2]
  by_cases h3 : n < 2097152
  · rw [if_pos h3, if_pos h3]
  rw [if_neg h3, if_neg h3]
  by_cases h4 : n < 268435456
  · rw [if_pos h4, if_pos h4]
  · rw [if_neg h4, if_neg h4]

theorem reads_getVarint32 (v : UInt32) : Reads getVarint32 (putVarint32 v) v := by
  have hv := v.toNat_lt
  have h := (Varint.reads_decode (w := 32) (n := 4) hv (by omega)).map (f := UInt32.ofNat)
  rw [UInt32.ofNat_toNat] at h
  rw [putVarint32, encodeVarint32_eq]
  exact h

theorem reads_getVarint64 (v : UInt64) : Reads getVarint64 (putVarint64 v) v := by
  have hv := v.toNat_lt
  have h := (Varint.reads_decode (w := 64) (n := 9) hv (by omega)).map (f := UInt64.ofNat)
  rw [UInt64.ofNat_toNat] at h
  exact h

theorem reads_getLengthPrefixedSlice {value : List UInt8} (h : value.length < 2 ^ 32) :
    Reads getLengthPrefixedSlice (putLengthPrefixedSlice value) value := by
  refine (reads_getVarint32 _).bind ?_
  have hlen : (UInt32.ofNat value.length).toNat = value.length := by
    rw [UInt32.toNat_ofNat']
    exact Nat.mod_eq_of_lt h
  rw [hlen]
  exact reads_take value

theorem reads_getLevel (level : Int32) : Reads getLevel (putVarint32 level.toUInt32) level :=
  (reads_getVarint32 level.toUInt32).map

theorem reads_getInternalKey {rep : List UInt8} (h : rep.length < 2 ^ 32)
    (hvalid : validKey rep = true) : Reads getInternalKey (putLengthPrefixedSlice rep) rep := by
  intro rest
  rw [getInternalKey, bind_ok (reads_getLengthPrefixedSlice h rest), if_pos hvalid]
  rfl

theorem getFixed64_encodeFixed (n : UInt64) : getFixed64 (encodeFixed 8 n.toNat) = some n := by
  have hn : n.toNat < 256 ^ 8 := n.toNat_lt
  have htake : (encodeFixed 8 n.toNat).take 8 = encodeFixed 8 n.toNat :=
    take_of_length_le (by rw [length_encodeFixed])
  rw [getFixed64, if_neg (by rw [length_encodeFixed]; decide), htake, decodeFixed_encodeFixed hn,
    UInt64.ofNat_toNat]

/-- A descriptor is rebuilt from its number and path id. -/
theorem FileDescriptor.new_getNumber (fd : FileDescriptor) :
    FileDescriptor.new fd.getNumber fd.getPathId fd.fileSize fd.smallestSeqno fd.largestSeqno
      = fd := by
  have hpacked : packFileNumberAndPathId fd.getNumber fd.getPathId.toUInt64
      = fd.packedNumberAndPathId := by
    refine UInt64.toNat_inj.mp ?_
    have hlt := fd.packedNumberAndPathId.toNat_lt
    have hone : (fileNumberMask + 1).toNat = 2 ^ 62 := rfl
    have hmask : fileNumberMask.toNat = 2 ^ 62 - 1 := rfl
    rw [packFileNumberAndPathId, FileDescriptor.getNumber, FileDescriptor.getPathId,
      UInt64.toNat_or, UInt64.toNat_and, UInt64.toNat_mul, UInt32.toNat_toUInt64,
      UInt64.toNat_toUInt32, UInt64.toNat_div, hone, hmask, Nat.and_two_pow_sub_one_eq_mod]
    generalize fd.packedNumberAndPathId.toNat = p at hlt
    have hpath : p / 2 ^ 62 % 2 ^ 32 * 2 ^ 62 % 2 ^ 64 = 2 ^ 62 * (p / 2 ^ 62) := by omega
    rw [hpath, Nat.or_comm, ← Nat.two_pow_add_eq_or_of_lt (Nat.mod_lt p (by decide)),
      Nat.div_add_mod]
  rw [FileDescriptor.new, hpacked]

/-! ## The loops end -/

theorem consumes_getVarint32 : Consumes getVarint32 :=
  (Varint.consumes_decode 32 5).bind (fun _ => Shrinks.pure _)

theorem consumes_getVarint64 : Consumes getVarint64 :=
  (Varint.consumes_decode 64 10).bind (fun _ => Shrinks.pure _)

theorem shrinks_getVarint32 : Shrinks getVarint32 := consumes_getVarint32.shrinks

theorem shrinks_getVarint64 : Shrinks getVarint64 := consumes_getVarint64.shrinks

theorem shrinks_getLengthPrefixedSlice : Shrinks getLengthPrefixedSlice :=
  shrinks_getVarint32.bind (fun _ _ _ _ h => (take_ok h).2)

theorem shrinks_getLevel : Shrinks getLevel := shrinks_getVarint32.bind (fun _ => Shrinks.pure _)

theorem shrinks_getInternalKey : Shrinks getInternalKey := by
  refine shrinks_getLengthPrefixedSlice.bind ?_
  intro str
  split
  · exact Shrinks.pure str
  · exact Shrinks.fail ()

theorem shrinks_getFileBounds : Shrinks getFileBounds :=
  shrinks_getVarint64.bind fun _ => shrinks_getInternalKey.bind fun _ =>
    shrinks_getInternalKey.bind fun _ => shrinks_getVarint64.bind fun _ =>
      shrinks_getVarint64.bind fun _ => Shrinks.pure _

theorem shrinks_getFileHead : Shrinks getFileHead :=
  shrinks_getLevel.bind fun _ => shrinks_getVarint64.bind fun _ =>
    shrinks_getFileBounds.bind fun _ => Shrinks.pure _

theorem shrinks_getNvmFields (layout : FlagLayout) : Shrinks (getNvmFields layout) :=
  shrinks_getVarint64.bind fun _ => shrinks_getVarint32.bind fun _ =>
    shrinks_getVarint64.bind fun _ => shrinks_getVarint64.bind fun _ =>
      shrinks_getVarint64.bind fun _ => shrinks_getVarint64.bind fun _ =>
        shrinks_getVarint32.bind fun _ => shrinks_getVarint32.bind fun _ => Shrinks.pure _

section CustomFields

variable (pathIdField : List UInt8 → Except String UInt32)

theorem consumes_customRound (c : CustomFields) : Consumes (customRound pathIdField c) := by
  refine (consumes_getVarint32.orFail _).bind ?_
  intro code
  split
  · exact Shrinks.pure _
  refine (shrinks_getLengthPrefixedSlice.orFail _).bind ?_
  intro field
  split
  · exact Shrinks.fail _
  · exact Shrinks.pure _

theorem progresses_customRound : Progresses (customRound pathIdField) :=
  fun c input _ rest h => consumes_customRound pathIdField c input _ rest h

theorem shrinks_getCustomFields (c : CustomFields) : Shrinks (getCustomFields pathIdField c) :=
  shrinks_iterate (fun c => (consumes_customRound pathIdField c).shrinks) c

end CustomFields

theorem shrinks_getNvmCustomFields (hasCustomizedFields : Bool) (c : CustomFields) :
    Shrinks (getNvmCustomFields hasCustomizedFields c) := by
  rw [getNvmCustomFields]
  split
  · exact shrinks_getCustomFields newFile5PathId c
  · exact Shrinks.pure c

theorem shrinks_decodeField (layout : FlagLayout) (e : VersionEdit) (t : Tag) :
    Shrinks (decodeField layout e t) := by
  cases t with
  | comparator | columnFamilyAdd =>
    exact (shrinks_getLengthPrefixedSlice.orFail _).bind fun _ => Shrinks.pure _
  | logNumber | prevLogNumber | nextFileNumber | lastSequence | minLogNumberToKeep =>
    exact (shrinks_getVarint64.orFail _).bind fun _ => Shrinks.pure _
  | maxColumnFamily | columnFamily | inAtomicGroup =>
    exact (shrinks_getVarint32.orFail _).bind fun _ => Shrinks.pure _
  | compactPointer =>
    exact (shrinks_getLevel.orFail _).bind fun _ =>
      (shrinks_getInternalKey.orFail _).bind fun _ => Shrinks.pure _
  | deletedFile =>
    exact (shrinks_getLevel.orFail _).bind fun _ =>
      (shrinks_getVarint64.orFail _).bind fun _ => Shrinks.pure _
  | newFile =>
    have h : Shrinks getNewFile := shrinks_getLevel.bind fun _ => shrinks_getVarint64.bind fun _ =>
      shrinks_getVarint64.bind fun _ => shrinks_getInternalKey.bind fun _ =>
        shrinks_getInternalKey.bind fun _ => Shrinks.pure _
    exact (h.orFail _).bind fun _ => Shrinks.pure _
  | newFile2 =>
    have h : Shrinks getNewFile2 := shrinks_getFileHead.bind fun _ => Shrinks.pure _
    exact (h.orFail _).bind fun _ => Shrinks.pure _
  | newFile3 =>
    have h : Shrinks getNewFile3 := shrinks_getLevel.bind fun _ =>
      shrinks_getVarint64.bind fun _ => shrinks_getVarint32.bind fun _ =>
        shrinks_getFileBounds.bind fun _ => Shrinks.pure _
    exact (h.orFail _).bind fun _ => Shrinks.pure _
  | newFile4 =>
    exact (shrinks_getFileHead.orFail _).bind fun _ =>
      (shrinks_getCustomFields _ _).bind fun _ => Shrinks.pure _
  | newFile5 =>
    exact ((shrinks_getNvmFields layout).orFail _).bind fun _ =>
      (shrinks_getFileHead.orFail _).bind fun _ =>
      (shrinks_getNvmCustomFields _ _).bind fun _ => Shrinks.pure _
  | columnFamilyDrop => exact Shrinks.pure _

variable {layout : FlagLayout} {e : VersionEdit}

theorem decodeRound_of_tag {t : Tag} {input rest : List UInt8}
    (h : getVarint32 input = .ok (t.code, rest)) :
    decodeRound layout e input = (decodeField layout e t >>= fun e' => pure (Sum.inl e')) rest := by
  simp only [decodeRound, h, Tag.ofCode_code]

theorem progresses_decodeRound : Progresses (decodeRound layout) := by
  intro e input e' rest h
  rw [decodeRound] at h
  cases hread : getVarint32 input with
  | error u =>
    simp only [hread] at h
    split at h
    · cases h
    · exact nomatch h
  | ok r =>
  obtain ⟨code, mid⟩ := r
  have hmid := consumes_getVarint32 input code mid hread
  simp only [hread] at h
  split at h
  · exact nomatch h
  · have hrest := ((shrinks_decodeField layout e _).bind fun _ => Shrinks.pure _) mid _ rest h
    omega

/-! ## The parts of an encoding -/

/-- The bytes take the decoder from `e` to `e'`. -/
def Parses (layout : FlagLayout) (e : VersionEdit) (bs : List UInt8) (e' : VersionEdit) : Prop :=
  ∀ rest, iterate (decodeRound layout) "unknown tag" e (bs ++ rest)
    = iterate (decodeRound layout) "unknown tag" e' rest

theorem Parses.nil (e : VersionEdit) : Parses layout e [] e := fun _ => rfl

variable {bs : List UInt8} {e' : VersionEdit}

theorem Parses.append {e'' : VersionEdit} {cs : List UInt8} (h : Parses layout e bs e')
    (h' : Parses layout e' cs e'') : Parses layout e (bs ++ cs) e'' := by
  intro rest
  rw [append_assoc, h (cs ++ rest), h' rest]

/-- One tagged field. -/
theorem Parses.field {t : Tag} (h : Reads (decodeField layout e t) bs e') :
    Parses layout e (putTag t ++ bs) e' := by
  intro rest
  have hround : decodeRound layout e (putTag t ++ (bs ++ rest)) = .ok (.inl e', rest) := by
    refine (decodeRound_of_tag (reads_getVarint32 t.code (bs ++ rest))).trans ?_
    rw [bind_ok (h rest)]
    rfl
  rw [append_assoc]
  exact iterate_of_inl progresses_decodeRound hround

/-- A field that may be missing; `set` says what the edit is with it. -/
theorem Parses.option (layout : FlagLayout) {e : VersionEdit} {α : Type} (t : Tag)
    (put : α → List UInt8) (set : Option α → VersionEdit) (o : Option α) (hnone : set none = e)
    (hsome : ∀ v, o = some v → Reads (decodeField layout e t) (put v) (set (some v))) :
    Parses layout e (putOption t put o) (set o) := by
  cases o with
  | none =>
    rw [hnone]
    exact Parses.nil e
  | some v => exact Parses.field (hsome v rfl)

/-- At the end of the input the edit is complete. -/
theorem decodeFrom_of_parses (h : Parses layout {} bs e) : decodeFrom layout bs = .ok e := by
  have hrun := h []
  rw [append_nil] at hrun
  have hend : iterate (decodeRound layout) "unknown tag" e [] = .ok (e, []) := iterate_of_inr rfl
  rw [decodeFrom, hrun, hend]
  rfl

/-! ## Deleted files -/

theorem insertDeleted_last {d : Int32 × UInt64} (h : ∀ x ∈ xs, deletedKey x < deletedKey d) :
    insertDeleted d xs = xs ++ [d] := by
  induction xs with
  | nil => rfl
  | cons x xs ih =>
  have hx := h x (.head _)
  rw [insertDeleted, if_neg (lt_asymm hx), if_pos hx, ih (fun y hy => h y (.tail x hy))]
  rfl

/-- The deleted files are inserted in order, each at the end. -/
theorem parses_deletedFiles (ds : List (Int32 × UInt64)) (e : VersionEdit) (s : DeletedFileSet)
    (hs : s.files = e.deletedFiles.files ++ ds) :
    Parses layout e (ds.flatMap putDeletedFile) { e with deletedFiles := s } := by
  induction ds generalizing e s with
  | nil =>
    have heq : s = e.deletedFiles := by
      ext1
      rw [hs, append_nil]
    rw [heq]
    exact Parses.nil e
  | cons d ds ih =>
  have hsorted : (e.deletedFiles.files ++ d :: ds).Pairwise
      (fun a b => deletedKey a < deletedKey b) := hs ▸ s.sorted
  have hinsert : (e.deletedFiles.insert d).files = e.deletedFiles.files ++ [d] :=
    insertDeleted_last (fun x hx =>
      (pairwise_append.mp hsorted).2.2 x hx d (.head _))
  have hfield : Parses layout e (putDeletedFile d)
      { e with deletedFiles := e.deletedFiles.insert d } := by
    rw [putDeletedFile, append_assoc]
    exact Parses.field (((reads_getLevel d.1).orFail _).bind
      ((reads_getVarint64 d.2).orFail _).map)
  refine hfield.append (ih { e with deletedFiles := e.deletedFiles.insert d } s ?_)
  show s.files = (e.deletedFiles.insert d).files ++ ds
  rw [hs, hinsert, append_assoc]
  rfl

/-! ## Customized fields -/

theorem FileDescriptor.getPathId_lt (fd : FileDescriptor) : fd.getPathId.toNat < 4 := by
  have hlt := fd.packedNumberAndPathId.toNat_lt
  have hone : (fileNumberMask + 1).toNat = 2 ^ 62 := rfl
  rw [FileDescriptor.getPathId, UInt64.toNat_toUInt32, UInt64.toNat_div, hone]
  omega

/-- The path id survives as one byte. -/
theorem newFile4PathId_getPathId (fd : FileDescriptor) :
    newFile4PathId [fd.getPathId.toUInt8] = .ok fd.getPathId := by
  have hlt := fd.getPathId_lt
  have hbyte : fd.getPathId.toUInt8.toNat = fd.getPathId.toNat := by
    rw [UInt32.toNat_toUInt8]
    omega
  have hle : ¬ fd.getPathId.toUInt8 > 3 := by
    rw [gt_iff_lt, UInt8.lt_iff_toNat_lt, hbyte]
    show ¬ 3 < fd.getPathId.toNat
    omega
  have hback : fd.getPathId.toUInt8.toUInt32 = fd.getPathId := by
    refine UInt32.toNat_inj.mp ?_
    rw [UInt8.toNat_toUInt32, hbyte]
  rw [newFile4PathId, if_neg hle, hback]

/-- The log number after a record: the first one takes it over. -/
def logAfter (minLog : Option UInt64) (minLogWritten : Bool) (m : Option UInt64) : Option UInt64 :=
  match minLog, minLogWritten with
  | some n, false => some n
  | _, _ => m

section CustomFields

variable {pathIdField : List UInt8 → Except String UInt32}

theorem reads_customRound {c c' : CustomFields} {t : CustomTag} {field : List UInt8}
    (hne : t.code ≠ CustomTag.terminate.code) (hlen : field.length < 2 ^ 32)
    (h : customField pathIdField c t.code field = .ok c') :
    Reads (customRound pathIdField c) (putCustomField t field) (.inl c') := by
  intro rest
  rw [customRound, putCustomField, append_assoc,
    bind_ok ((reads_getVarint32 t.code).orFail _ _), if_neg hne,
    bind_ok ((reads_getLengthPrefixedSlice hlen).orFail _ rest), h]
  rfl

/-- A customized field that is only written under a condition. -/
theorem reads_customOption {c r : CustomFields} (c' : CustomFields) {t : CustomTag}
    {field cs : List UInt8} (P : Prop) [Decidable P] (hne : t.code ≠ CustomTag.terminate.code)
    (hlen : field.length < 2 ^ 32) (hyes : P → customField pathIdField c t.code field = .ok c')
    (hno : ¬ P → c' = c) (hrest : Reads (getCustomFields pathIdField c') cs r) :
    Reads (getCustomFields pathIdField c) ((if P then putCustomField t field else []) ++ cs) r := by
  split_ifs with hP
  · exact Reads.iterate_inl (progresses_customRound pathIdField)
      (reads_customRound hne hlen (hyes hP)) hrest
  · rw [← hno hP]
    exact hrest

theorem reads_terminate (pathIdField : List UInt8 → Except String UInt32) (c : CustomFields) :
    Reads (getCustomFields pathIdField c) (putVarint32 CustomTag.terminate.code) c := by
  refine Reads.iterate_inr ?_
  intro rest
  rw [customRound, bind_ok ((reads_getVarint32 _).orFail _ rest), if_pos rfl]
  rfl

/-- The fields behind the path id, in both formats. -/
theorem reads_customTail (f : FileMetaData) (minLog : Option UInt64) (minLogWritten : Bool)
    (pathId : UInt32) (m : Option UInt64) :
    Reads (getCustomFields pathIdField { pathId := pathId, minLogNumberToKeep := m })
      ((if f.markedForCompaction then putCustomField .needCompaction [1] else []) ++
        (putMinLog minLog minLogWritten ++ putVarint32 CustomTag.terminate.code))
      { pathId := pathId, markedForCompaction := f.markedForCompaction
        minLogNumberToKeep := logAfter minLog minLogWritten m } := by
  refine reads_customOption { pathId := pathId, minLogNumberToKeep := m
                              markedForCompaction := f.markedForCompaction } _ (by decide)
                                (by decide)
    ?_ ?_ ?_
  · intro hmarked
    rw [hmarked]
    rfl
  · intro hmarked
    rw [Bool.not_eq_true] at hmarked
    rw [hmarked]
  · have hdone := reads_terminate pathIdField
      { pathId := pathId, markedForCompaction := f.markedForCompaction, minLogNumberToKeep := m }
    cases minLog with
    | none => exact hdone
    | some n =>
    cases minLogWritten with
    | true => exact hdone
    | false =>
    refine Reads.iterate_inl (progresses_customRound pathIdField)
      (reads_customRound (by decide) (by rw [length_encodeFixed]; decide) ?_)
      (reads_terminate pathIdField _)
    show (match getFixed64 (encodeFixed 8 n.toNat) with
      | none => Except.error "deleted log number malformatted"
      | some n => .ok (CustomFields.mk pathId f.markedForCompaction (some n))) = _
    rw [getFixed64_encodeFixed]
    rfl

end CustomFields

/-! ## The bytes behind the flag -/

/-- Both values of the flag have three zero bytes above the low one. -/
theorem overwritten_ite (b : Bool) (c : Fin 3) (v : Nat) :
    overwritten (if b then 1 else 0) c v = v - v % 256 ^ (c.val + 1) := by
  have hflag : ∀ c : Fin 3, (if b then 1 else 0 : UInt32).toNat / 256 ^ (3 - c.val) = 0 := by
    cases b <;> decide
  rw [overwritten, hflag, Nat.add_zero]

theorem sub_mod_eq_iff (c : Fin 3) {v w : Nat} (h : v < w) :
    (v - v % 256 ^ (c.val + 1)) % w = v ↔ v % 256 ^ (c.val + 1) = 0 := by
  have hle := Nat.mod_le v (256 ^ (c.val + 1))
  rw [Nat.mod_eq_of_lt (by omega)]
  omega

theorem ofNat64_eq_iff (c : Fin 3) (v : UInt64) :
    UInt64.ofNat (v.toNat - v.toNat % 256 ^ (c.val + 1)) = v ↔
      v.toNat % 256 ^ (c.val + 1) = 0 := by
  rw [← UInt64.toNat_inj, UInt64.toNat_ofNat', sub_mod_eq_iff c v.toNat_lt]

theorem ofNat32_eq_iff (c : Fin 3) (v : UInt32) :
    UInt32.ofNat (v.toNat - v.toNat % 256 ^ (c.val + 1)) = v ↔
      v.toNat % 256 ^ (c.val + 1) = 0 := by
  rw [← UInt32.toNat_inj, UInt32.toNat_ofNat', sub_mod_eq_iff c v.toNat_lt]

namespace NvmFields

def word (n : NvmFields) : NvmLocal → Nat
  | .firstKeyIndex => n.firstKeyIndex.toNat
  | .nvmSstableIndex => n.nvmSstableIndex.toUInt32.toNat
  | .keysNum => n.keysNum.toNat
  | .keyPointFilenum => n.keyPointFilenum.toNat
  | .rawFileSize => n.rawFileSize.toNat
  | .nvmMetaSize => n.nvmMetaSize.toNat
  | .pathId => n.pathId.toNat

/-- The bytes of the locals that lie behind the flag are zero. -/
def Spared (n : NvmFields) : FlagLayout → Prop
  | none => True
  | some (x, c) => n.word x % 256 ^ (c.val + 1) = 0

/-- The locals survive the store exactly if the bytes it reaches were zero before. -/
theorem storeFlag_eq_iff (b : Bool) (n : NvmFields) (layout : FlagLayout) :
    n.storeFlag (if b then 1 else 0) layout = n ↔ n.Spared layout := by
  obtain _ | ⟨x, c⟩ := layout
  · exact ⟨fun _ => trivial, fun _ => rfl⟩
  cases n
  cases x with
  | nvmSstableIndex =>
    simp only [storeFlag, Spared, word, overwritten_ite, mk.injEq, true_and, and_true]
    rw [← ofNat32_eq_iff]
    refine ⟨fun h => ?_, fun h => ?_⟩
    · exact (UInt32.toUInt32_toInt32 _).symm.trans (congrArg Int32.toUInt32 h)
    · rw [h, Int32.toInt32_toUInt32]
  | _ =>
    simp only [storeFlag, Spared, word, overwritten_ite, mk.injEq, true_and, and_true,
      ofNat64_eq_iff, ofNat32_eq_iff]

/-- The flag's own value does not matter. -/
theorem storeFlag_ite (b : Bool) (n : NvmFields) (layout : FlagLayout) :
    n.storeFlag (if b then 1 else 0) layout = n.storeFlag 0 layout := by
  have hzero := overwritten_ite false
  rw [if_neg Bool.false_ne_true] at hzero
  obtain _ | ⟨x, c⟩ := layout
  · rfl
  cases x <;> simp only [storeFlag, overwritten_ite, hzero]

/-- A path id fits into one byte, so it is kept or becomes 0. -/
theorem pathId_storeFlag (n : NvmFields) (h : n.pathId.toNat < 4) (layout : FlagLayout) :
    (n.storeFlag 0 layout).pathId = n.pathId ∨ (n.storeFlag 0 layout).pathId = 0 := by
  obtain _ | ⟨x, c⟩ := layout
  · exact .inl rfl
  cases x with
  | pathId =>
    have hsmall : n.pathId.toNat < 256 ^ (c.val + 1) :=
      h.trans_le (le_trans (by decide) (Nat.pow_le_pow_right (by decide) (Nat.le_add_left 1 c.val)))
    have hword := overwritten_ite false c n.pathId.toNat
    rw [Nat.mod_eq_of_lt hsmall, Nat.sub_self] at hword
    exact .inr (congrArg UInt32.ofNat hword)
  | _ => exact .inl rfl

end NvmFields

/-! ## New files -/

/-- Keys of less than 4 GB. -/
structure FileMetaData.Short (f : FileMetaData) : Prop where
  smallest : f.smallest.length < 2 ^ 32
  largest : f.largest.length < 2 ^ 32

def FileMetaData.nvmFields (f : FileMetaData) : NvmFields :=
  ⟨f.firstKeyIndex, f.nvmSstableIndex, f.keysNum, f.keyPointFilenum, f.rawFileSize, f.nvmMetaSize,
    f.fd.getPathId⟩

def FileMetaData.bounds (f : FileMetaData) : FileBounds :=
  ⟨f.fd.fileSize, f.smallest, f.largest, f.fd.smallestSeqno, f.fd.largestSeqno⟩

theorem FileMetaData.bounds_file (f : FileMetaData) :
    f.bounds.file f.fd.getNumber f.fd.getPathId
      = { fd := f.fd, smallest := f.smallest, largest := f.largest } := by
  show ({ fd := FileDescriptor.new f.fd.getNumber f.fd.getPathId f.fd.fileSize f.fd.smallestSeqno
            f.fd.largestSeqno
          smallest := f.smallest, largest := f.largest } : FileMetaData) = _
  rw [FileDescriptor.new_getNumber]

/-- What comes back of a file: the NVM fields only of an NVM file, and of these what the store
    of its flag leaves. -/
def storedFile (layout : FlagLayout) (f : FileMetaData) : FileMetaData :=
  if f.isNvmLevel0 then
    let nvm := f.nvmFields.storeFlag 0 layout
    nvm.file { f.bounds.file f.fd.getNumber nvm.pathId with
      markedForCompaction := f.markedForCompaction }
  else
    { fd := f.fd, smallest := f.smallest, largest := f.largest
      markedForCompaction := f.markedForCompaction }

/-- Level, number and bounds, the middle of every new file record. -/
def putFileHead (level : Int32) (f : FileMetaData) : List UInt8 :=
  putVarint32 level.toUInt32 ++ (putVarint64 f.fd.getNumber ++ putFileBounds f)

/-- An edit with a new file, and the log number that rides on it. -/
def VersionEdit.withFile (layout : FlagLayout) (e : VersionEdit) (level : Int32) (f : FileMetaData)
    (minLog : Option UInt64) (minLogWritten : Bool) : VersionEdit :=
  { e with minLogNumberToKeep := logAfter minLog minLogWritten e.minLogNumberToKeep }.addFile
    (level, storedFile layout f)

section NewFile

variable {f : FileMetaData} (hshort : f.Short) (hsmallest : validKey f.smallest = true)
  (hlargest : validKey f.largest = true) (e : VersionEdit) (level : Int32) (minLog : Option UInt64)
  (minLogWritten : Bool)

include hshort hsmallest hlargest

theorem reads_getFileBounds : Reads getFileBounds (putFileBounds f) f.bounds := by
  rw [putFileBounds, append_assoc, append_assoc, append_assoc]
  exact (reads_getVarint64 _).bind ((reads_getInternalKey hshort.smallest hsmallest).bind
    ((reads_getInternalKey hshort.largest hlargest).bind
      ((reads_getVarint64 _).bind (reads_getVarint64 _).map)))

theorem reads_getFileHead :
    Reads getFileHead (putFileHead level f) ⟨level, f.fd.getNumber, f.bounds⟩ :=
  (reads_getLevel level).bind ((reads_getVarint64 _).bind
    (reads_getFileBounds hshort hsmallest hlargest).map)

/-- The old formats, for files without customized fields. -/
theorem parses_plainFile (hnvm : f.isNvmLevel0 = false)
    (hmarked : f.markedForCompaction = false) :
    Parses layout e (putNewFile none minLogWritten (level, f))
      (e.addFile (level, storedFile layout f)) := by
  have hstored : storedFile layout f =
      { fd := f.fd, smallest := f.smallest, largest := f.largest } := by
    rw [storedFile, hnvm, hmarked]
    rfl
  have hbounds := reads_getFileBounds hshort hsmallest hlargest
  simp only [putNewFile, hnvm, hmarked, Option.isSome_none, Bool.or_self, Bool.false_eq_true,
    if_false, append_nil, and_true]
  rw [hstored, ← f.bounds_file]
  by_cases hpath : f.fd.getPathId = 0
  · have hhead := reads_getFileHead hshort hsmallest hlargest level
    rw [if_pos hpath, if_neg (not_not.mpr hpath), append_nil, append_assoc, append_assoc, hpath]
    exact Parses.field (hhead.map.orFail _).map
  rw [if_neg hpath, if_pos hpath, append_assoc, append_assoc, append_assoc]
  have hread : Reads getNewFile3 _ (level, f.bounds.file f.fd.getNumber f.fd.getPathId) :=
    (reads_getLevel level).bind ((reads_getVarint64 f.fd.getNumber).bind
      ((reads_getVarint32 f.fd.getPathId).bind hbounds.map))
  exact Parses.field (hread.orFail _).map

/-- The format with customized fields. -/
theorem parses_customFile (hnvm : f.isNvmLevel0 = false)
    (hcustom : (f.markedForCompaction || minLog.isSome) = true) :
    Parses layout e (putNewFile minLog minLogWritten (level, f))
      (e.withFile layout level f minLog minLogWritten) := by
  have hstored : storedFile layout f = { f.bounds.file f.fd.getNumber f.fd.getPathId with
      markedForCompaction := f.markedForCompaction } := by
    rw [storedFile, hnvm, f.bounds_file]
    rfl
  have hhead := reads_getFileHead hshort hsmallest hlargest level
  have hfields : Reads (getCustomFields newFile4PathId
      { minLogNumberToKeep := e.minLogNumberToKeep }) (putCustomFields f minLog minLogWritten)
      { pathId := f.fd.getPathId, markedForCompaction := f.markedForCompaction
        minLogNumberToKeep := logAfter minLog minLogWritten e.minLogNumberToKeep } := by
    rw [putCustomFields, append_assoc, append_assoc]
    refine reads_customOption { pathId := f.fd.getPathId
                                minLogNumberToKeep := e.minLogNumberToKeep } _ (by decide)
      (by show 1 < 2 ^ 32; decide) ?_ ?_ (reads_customTail f minLog minLogWritten _ _)
    · intro _
      show (newFile4PathId [f.fd.getPathId.toUInt8]).map _ = _
      rw [newFile4PathId_getPathId]
      rfl
    · intro hno
      have hpath : f.fd.getPathId = 0 := by
        by_contra hne
        exact hno ⟨hne, hnvm⟩
      rw [hpath]
  have hread : Reads (decodeNewFile4From e)
      (putFileHead level f ++ putCustomFields f minLog minLogWritten) _ :=
    (hhead.orFail _).bind hfields.map
  have hput : putNewFile minLog minLogWritten (level, f) = putTag .newFile4 ++
      (putFileHead level f ++ putCustomFields f minLog minLogWritten) := by
    simp only [putNewFile, putFileHead, hnvm, hcustom, Bool.false_eq_true, if_false, if_true,
      and_false, false_and, append_nil, Bool.true_eq_false, append_assoc]
  rw [hput, VersionEdit.withFile, hstored]
  exact Parses.field hread

omit hshort hsmallest hlargest in
theorem reads_getNvmFields (f : FileMetaData) (hasCustomizedFields : Bool) :
    Reads (getNvmFields layout) (putNvmFields f hasCustomizedFields)
      (f.nvmFields.storeFlag 0 layout, hasCustomizedFields) := by
  have hflag : (f.nvmFields.storeFlag (if hasCustomizedFields then 1 else 0) layout,
      decide ((if hasCustomizedFields then 1 else 0 : UInt32).toNat % 256 ≠ 0))
      = (f.nvmFields.storeFlag 0 layout, hasCustomizedFields) := by
    refine Prod.ext (NvmFields.storeFlag_ite _ _ layout) ?_
    cases hasCustomizedFields <;> rfl
  rw [putNvmFields, ← hflag]
  simp only [append_assoc]
  exact (reads_getVarint64 _).bind ((reads_getVarint32 f.nvmSstableIndex.toUInt32).bind
    ((reads_getVarint64 _).bind ((reads_getVarint64 _).bind ((reads_getVarint64 _).bind
      ((reads_getVarint64 _).bind ((reads_getVarint32 _).bind (reads_getVarint32 _).map))))))

/-- The format of NVM files. -/
theorem parses_nvmFile (hnvm : f.isNvmLevel0 = true) :
    Parses layout e (putNewFile minLog minLogWritten (level, f))
      (e.withFile layout level f minLog minLogWritten) := by
  generalize hcustom : (f.markedForCompaction || minLog.isSome) = custom
  have hfields : Reads (getNvmCustomFields custom
      { minLogNumberToKeep := e.minLogNumberToKeep })
      (if custom then putCustomFields f minLog minLogWritten else [])
      { markedForCompaction := f.markedForCompaction
        minLogNumberToKeep := logAfter minLog minLogWritten e.minLogNumberToKeep } := by
    cases custom with
    | true =>
      have hpath : ¬ (f.fd.getPathId ≠ 0 ∧ f.isNvmLevel0 = false) := by
        rw [hnvm]
        exact fun h => by cases h.2
      rw [if_pos rfl, getNvmCustomFields, if_pos rfl, putCustomFields, if_neg hpath,
        nil_append, append_assoc]
      exact reads_customTail f minLog minLogWritten 0 e.minLogNumberToKeep
    | false =>
    obtain ⟨hmarked, hlog⟩ := Bool.or_eq_false_iff.mp hcustom
    have hnone : minLog = none := by
      cases minLog with
      | none => rfl
      | some n => cases hlog
    rw [hnone, hmarked]
    exact Reads.pure _
  have hread : Reads (decodeNewFile5From layout e)
      (putNvmFields f custom ++
        (putFileHead level f ++ if custom then putCustomFields f minLog minLogWritten else [])) _ :=
    ((reads_getNvmFields f custom).orFail _).bind
      (((reads_getFileHead hshort hsmallest hlargest level).orFail _).bind hfields.map)
  have hput : putNewFile minLog minLogWritten (level, f) = putTag .newFile5 ++
      (putNvmFields f custom ++
        (putFileHead level f ++ if custom then putCustomFields f minLog minLogWritten else
          [])) := by
    simp only [putNewFile, putFileHead, hnvm, hcustom, if_true, Bool.true_eq_false,
      and_false, if_false,
      append_nil, append_assoc]
  rw [hput, VersionEdit.withFile, storedFile, if_pos hnvm]
  exact Parses.field hread

variable (layout) in
/-- **ONE NEW FILE** is read back in each of its formats. -/
theorem parses_newFile :
    Parses layout e (putNewFile minLog minLogWritten (level, f))
      (e.withFile layout level f minLog minLogWritten) := by
  cases hnvm : f.isNvmLevel0 with
  | true => exact parses_nvmFile hshort hsmallest hlargest e level minLog minLogWritten hnvm
  | false =>
  cases hcustom : (f.markedForCompaction || minLog.isSome) with
  | true =>
    exact parses_customFile hshort hsmallest hlargest e level minLog minLogWritten hnvm hcustom
  | false =>
  obtain ⟨hmarked, hlog⟩ := Bool.or_eq_false_iff.mp hcustom
  cases minLog with
  | some n => exact nomatch hlog
  | none =>
    exact parses_plainFile hshort hsmallest hlargest e level minLogWritten hnvm hmarked

end NewFile

/-- The log number after all records. -/
def logAfterFiles (minLog : Option UInt64) (minLogWritten : Bool)
    (files : List (Int32 × FileMetaData)) (m : Option UInt64) : Option UInt64 :=
  if files = [] then m else logAfter minLog minLogWritten m

def storedFiles (layout : FlagLayout) (files : List (Int32 × FileMetaData)) :
    List (Int32 × FileMetaData) :=
  files.map fun file => (file.1, storedFile layout file.2)

/-- Once written, or with nothing to write, the number stays. -/
theorem logAfterFiles_cons (minLog : Option UInt64) (minLogWritten : Bool)
    (files : List (Int32 × FileMetaData)) (m : Option UInt64) :
    logAfterFiles minLog (minLogWritten || minLog.isSome) files (logAfter minLog minLogWritten m)
      = logAfter minLog minLogWritten m := by
  rw [logAfterFiles]
  split
  · rfl
  cases minLog with
  | none => rfl
  | some n => cases minLogWritten <;> rfl

/-- **ALL NEW FILES**: by induction on the list, with the flag of the encoder's loop. -/
theorem parses_newFiles (minLog : Option UInt64) (files : List (Int32 × FileMetaData)) :
    ∀ (minLogWritten : Bool) (e : VersionEdit) (bs : List UInt8),
      putNewFiles minLog minLogWritten files = some bs → (∀ file ∈ files, file.2.Short) →
      Parses layout e bs { e with
        minLogNumberToKeep := logAfterFiles minLog minLogWritten files e.minLogNumberToKeep
        newFiles := e.newFiles ++ storedFiles layout files } := by
  induction files with
  | nil =>
    intro minLogWritten e bs hput _
    cases hput
    have hfiles : e.newFiles ++ storedFiles layout [] = e.newFiles := append_nil _
    rw [hfiles]
    exact Parses.nil e
  | cons file files ih =>
  intro minLogWritten e bs hput hshort
  obtain ⟨level, f⟩ := file
  rw [putNewFiles] at hput
  split at hput
  · exact nomatch hput
  rename_i hinvalid
  obtain ⟨hsmallest, hlargest⟩ := not_or.mp hinvalid
  rw [Bool.not_eq_false] at hsmallest hlargest
  obtain ⟨cs, hcs, rfl⟩ := Option.map_eq_some_iff.mp hput
  have hfirst := parses_newFile layout (hshort _ (.head _)) hsmallest hlargest e level
    minLog minLogWritten
  have hrest := ih (minLogWritten || minLog.isSome) (e.withFile layout level f minLog minLogWritten)
    cs hcs (fun x hx => hshort x (.tail _ hx))
  have hlog : logAfterFiles minLog minLogWritten ((level, f) :: files) e.minLogNumberToKeep
      = logAfterFiles minLog (minLogWritten || minLog.isSome) files
        (logAfter minLog minLogWritten e.minLogNumberToKeep) := by
    rw [logAfterFiles_cons, logAfterFiles, if_neg (cons_ne_nil _ _)]
  have hfiles : e.newFiles ++ storedFiles layout ((level, f) :: files)
      = e.newFiles ++ [(level, storedFile layout f)] ++ storedFiles layout files := by
    rw [append_assoc]
    rfl
  rw [hlog, hfiles]
  exact hfirst.append hrest

/-! ## The whole edit -/

/-- Strings of less than 4 GB. -/
structure Short (e : VersionEdit) : Prop where
  comparator : ∀ s, e.comparator = some s → s.length < 2 ^ 32
  newFiles : ∀ file ∈ e.newFiles, file.2.Short
  columnFamilyAdd : ∀ s, e.columnFamilyAdd = some s → s.length < 2 ^ 32

/-- What is stored of an edit. -/
def storedEdit (layout : FlagLayout) (e : VersionEdit) : VersionEdit :=
  { e with
    minLogNumberToKeep := if e.newFiles = [] then none else e.minLogNumberToKeep
    newFiles := storedFiles layout e.newFiles }

theorem logAfterFiles_none (minLog : Option UInt64) (files : List (Int32 × FileMetaData)) :
    logAfterFiles minLog false files none = if files = [] then none else minLog := by
  cases minLog <;> rfl

variable (layout) in
/-- The fields in front of the files. -/
theorem parses_front (hshort : Short e) :
    Parses layout {}
      (putOption .comparator putLengthPrefixedSlice e.comparator ++
        putOption .logNumber putVarint64 e.logNumber ++
        putOption .prevLogNumber putVarint64 e.prevLogNumber ++
        putOption .nextFileNumber putVarint64 e.nextFileNumber ++
        putOption .lastSequence putVarint64 e.lastSequence ++
        putOption .maxColumnFamily putVarint32 e.maxColumnFamily)
      { comparator := e.comparator, logNumber := e.logNumber, prevLogNumber := e.prevLogNumber
        nextFileNumber := e.nextFileNumber, lastSequence := e.lastSequence
        maxColumnFamily := e.maxColumnFamily } := by
  let b1 : VersionEdit := { comparator := e.comparator }
  let b2 := { b1 with logNumber := e.logNumber }
  let b3 := { b2 with prevLogNumber := e.prevLogNumber }
  let b4 := { b3 with nextFileNumber := e.nextFileNumber }
  let b5 := { b4 with lastSequence := e.lastSequence }
  have h1 := Parses.option layout .comparator putLengthPrefixedSlice (fun o => { comparator := o })
    e.comparator rfl
    (fun s hs => ((reads_getLengthPrefixedSlice (hshort.comparator s hs)).orFail _).map)
  have h2 := Parses.option layout .logNumber putVarint64 (fun o => { b1 with logNumber := o })
    e.logNumber rfl (fun n _ => ((reads_getVarint64 n).orFail _).map)
  have h3 := Parses.option layout .prevLogNumber putVarint64
      (fun o => { b2 with prevLogNumber := o })
    e.prevLogNumber rfl (fun n _ => ((reads_getVarint64 n).orFail _).map)
  have h4 := Parses.option layout .nextFileNumber putVarint64
      (fun o => { b3 with nextFileNumber := o })
    e.nextFileNumber rfl (fun n _ => ((reads_getVarint64 n).orFail _).map)
  have h5 := Parses.option layout .lastSequence putVarint64 (fun o => { b4 with lastSequence := o })
    e.lastSequence rfl (fun n _ => ((reads_getVarint64 n).orFail _).map)
  have h6 := Parses.option layout .maxColumnFamily putVarint32
      (fun o => { b5 with maxColumnFamily := o })
    e.maxColumnFamily rfl (fun n _ => ((reads_getVarint32 n).orFail _).map)
  exact ((((h1.append h2).append h3).append h4).append h5).append h6

/-- A field that is only written under a condition. -/
theorem Parses.ite {t : Tag} (P : Prop) [Decidable P]
    (hyes : P → Reads (decodeField layout e t) bs e')
    (hno : ¬ P → e' = e) : Parses layout e (if P then putTag t ++ bs else []) e' := by
  split_ifs with hP
  · exact Parses.field (hyes hP)
  · rw [hno hP]
    exact Parses.nil e

/-- The fields behind the files, on an edit without them. -/
theorem parses_back {b : VersionEdit} (hshort : Short e) (hfamily : b.columnFamily = 0)
    (hadd : b.columnFamilyAdd = none) (hdrop : b.isColumnFamilyDrop = false)
    (hgroup : b.atomicGroup = none) :
    Parses layout b
      ((if e.columnFamily ≠ 0 then putTag .columnFamily ++ putVarint32 e.columnFamily else []) ++
        putOption .columnFamilyAdd putLengthPrefixedSlice e.columnFamilyAdd ++
        (if e.isColumnFamilyDrop then putTag .columnFamilyDrop else []) ++
        putOption .inAtomicGroup putVarint32 e.atomicGroup)
      { b with
        columnFamily := e.columnFamily, columnFamilyAdd := e.columnFamilyAdd
        isColumnFamilyDrop := e.isColumnFamilyDrop, atomicGroup := e.atomicGroup } := by
  let b1 := { b with columnFamily := e.columnFamily }
  let b2 := { b1 with columnFamilyAdd := e.columnFamilyAdd }
  let b3 := { b2 with isColumnFamilyDrop := e.isColumnFamilyDrop }
  have h1 : Parses layout b
      (if e.columnFamily ≠ 0 then putTag .columnFamily ++ putVarint32 e.columnFamily else
        []) b1 := by
    refine Parses.ite _ (fun _ => ((reads_getVarint32 e.columnFamily).orFail _).map) ?_
    intro hzero
    show { b with columnFamily := e.columnFamily } = b
    rw [not_not.mp hzero, ← hfamily]
  have h2 := Parses.option layout .columnFamilyAdd putLengthPrefixedSlice
    (fun o => { b1 with columnFamilyAdd := o }) e.columnFamilyAdd
    (show { b1 with columnFamilyAdd := none } = b1 by rw [← hadd])
    (fun s hs => ((reads_getLengthPrefixedSlice (hshort.columnFamilyAdd s hs)).orFail _).map)
  have h3 : Parses layout b2 (if e.isColumnFamilyDrop then putTag .columnFamilyDrop
      ++ [] else []) b3 := by
    refine Parses.ite _ ?_ ?_
    · intro hyes
      show Reads _ _ { b2 with isColumnFamilyDrop := e.isColumnFamilyDrop }
      rw [hyes]
      exact Reads.pure _
    · intro hno
      rw [Bool.not_eq_true] at hno
      show { b2 with isColumnFamilyDrop := e.isColumnFamilyDrop } = b2
      rw [hno, ← hdrop]
  have h4 := Parses.option layout .inAtomicGroup putVarint32 (fun o => { b3 with atomicGroup := o })
    e.atomicGroup (show { b3 with atomicGroup := none } = b3 by rw [← hgroup])
    (fun n _ => ((reads_getVarint32 n).orFail _).map)
  rw [append_nil] at h3
  exact ((h1.append h2).append h3).append h4

/-- **DECODING AN ENCODING**: what is stored comes back. -/
theorem decodeFrom_encodeTo (henc : encodeTo e = some bs) (hshort : Short e) :
    decodeFrom layout bs = .ok (storedEdit layout e) := by
  obtain ⟨files, hfiles, rfl⟩ := Option.map_eq_some_iff.mp henc
  refine decodeFrom_of_parses ?_
  have hdeleted := (parses_front layout hshort).append
    (parses_deletedFiles e.deletedFiles.files _ e.deletedFiles rfl)
  have hnew := hdeleted.append (parses_newFiles e.minLogNumberToKeep e.newFiles false _ files hfiles
    hshort.newFiles)
  have hall := hnew.append (parses_back hshort rfl rfl rfl rfl)
  rw [storedEdit, ← logAfterFiles_none]
  simp only [append_assoc] at hall ⊢
  exact hall

/-! ## Long strings -/

theorem ensures_getLengthPrefixedSlice :
    Ensures getLengthPrefixedSlice (fun s => s.length < 2 ^ 32) := by
  refine Ensures.skip ?_
  intro len input s rest h
  rw [(take_ok h).1]
  exact len.toNat_lt

theorem ensures_getInternalKey : Ensures getInternalKey (fun s => s.length < 2 ^ 32) := by
  refine ensures_getLengthPrefixedSlice.bind ?_
  intro s hs
  split
  · exact Ensures.pure hs
  · exact Ensures.fail () _

def FileBounds.Short (b : FileBounds) : Prop :=
  b.smallest.length < 2 ^ 32 ∧ b.largest.length < 2 ^ 32

theorem FileBounds.Short.file {b : FileBounds} (h : b.Short) (number : UInt64) (pathId : UInt32) :
    (b.file number pathId).Short := ⟨h.1, h.2⟩

theorem ensures_getFileBounds : Ensures getFileBounds FileBounds.Short :=
  Ensures.skip fun _ => ensures_getInternalKey.bind fun _ hs =>
    ensures_getInternalKey.bind fun _ hl => Ensures.skip fun _ => Ensures.skip fun _ =>
      Ensures.pure ⟨hs, hl⟩

theorem ensures_getFileHead : Ensures getFileHead (fun head => head.bounds.Short) :=
  Ensures.skip fun _ => Ensures.skip fun _ => ensures_getFileBounds.bind fun _ h => Ensures.pure h

theorem Short.addFile (h : Short e) {file : Int32 × FileMetaData} (hfile : file.2.Short) :
    Short (e.addFile file) := by
  refine ⟨h.comparator, ?_, h.columnFamilyAdd⟩
  intro x hx
  rcases mem_append.mp hx with hx | hx
  · exact h.newFiles x hx
  · rw [mem_singleton.mp hx]
    exact hfile

theorem Short.setLog (h : Short e) (m : Option UInt64) : Short { e with minLogNumberToKeep := m } :=
  { h with }

theorem ensures_decodeField (h : Short e) (t : Tag) : Ensures (decodeField layout e t) Short := by
  have hsome : ∀ {s : List UInt8}, s.length < 2 ^ 32 → ∀ s', some s = some s' →
      s'.length < 2 ^ 32 := by
    intro s hs s' heq
    cases heq
    exact hs
  cases t with
  | comparator =>
    exact (ensures_getLengthPrefixedSlice.orFail _).bind fun s hs =>
      Ensures.pure { h with comparator := hsome hs }
  | columnFamilyAdd =>
    exact (ensures_getLengthPrefixedSlice.orFail _).bind fun s hs =>
      Ensures.pure { h with columnFamilyAdd := hsome hs }
  | logNumber | prevLogNumber | nextFileNumber | lastSequence | maxColumnFamily
  | minLogNumberToKeep | columnFamily | inAtomicGroup =>
    exact Ensures.skip fun _ => Ensures.pure { h with }
  | columnFamilyDrop => exact Ensures.pure { h with }
  | compactPointer => exact Ensures.skip fun _ => Ensures.skip fun _ => Ensures.pure h
  | deletedFile =>
    exact Ensures.skip fun _ => Ensures.skip fun _ =>
      Ensures.pure { h with }
  | newFile =>
    have hfile : Ensures getNewFile (fun file => file.2.Short) :=
      Ensures.skip fun _ => Ensures.skip fun _ => Ensures.skip fun _ =>
        ensures_getInternalKey.bind fun _ hs => ensures_getInternalKey.bind fun _ hl =>
          Ensures.pure ⟨hs, hl⟩
    exact (hfile.orFail _).bind fun _ hf => Ensures.pure (h.addFile hf)
  | newFile2 =>
    have hfile : Ensures getNewFile2 (fun file => file.2.Short) :=
      ensures_getFileHead.bind fun _ hb => Ensures.pure (hb.file _ _)
    exact (hfile.orFail _).bind fun _ hf => Ensures.pure (h.addFile hf)
  | newFile3 =>
    have hfile : Ensures getNewFile3 (fun file => file.2.Short) :=
      Ensures.skip fun _ => Ensures.skip fun _ => Ensures.skip fun _ =>
        ensures_getFileBounds.bind fun _ hb => Ensures.pure (hb.file _ _)
    exact (hfile.orFail _).bind fun _ hf => Ensures.pure (h.addFile hf)
  | newFile4 =>
    exact (ensures_getFileHead.orFail _).bind fun _ hb => Ensures.skip fun c =>
      Ensures.pure ((h.setLog c.minLogNumberToKeep).addFile ⟨hb.1, hb.2⟩)
  | newFile5 =>
  exact Ensures.skip fun _ => (ensures_getFileHead.orFail _).bind fun _ hb =>
    Ensures.skip fun c =>
      Ensures.pure ((h.setLog c.minLogNumberToKeep).addFile ⟨hb.1, hb.2⟩)

/-- A decoded edit has no long strings. -/
theorem short_of_decodeFrom (h : decodeFrom layout bs = .ok e) : Short e := by
  have hround : ∀ b, Short b → Ensures (decodeRound layout b) (Sum.elim Short Short) := by
    intro b hb input step rest hstep
    rw [decodeRound] at hstep
    split at hstep
    · split at hstep
      · cases hstep
        exact hb
      · exact nomatch hstep
    split at hstep
    · exact nomatch hstep
    rename_i t _
    exact ((ensures_decodeField hb t).bind fun b' hb' =>
      Ensures.pure (Q := Sum.elim Short Short) (a := Sum.inl b') hb') _ step rest hstep
  have hstart : Short {} := ⟨nofun, nofun, nofun⟩
  rw [decodeFrom] at h
  cases hrun : iterate (decodeRound layout) "unknown tag" {} bs with
  | error msg =>
    rw [hrun] at h
    exact nomatch h
  | ok r =>
  rw [hrun] at h
  cases h
  exact ensures_iterate hround hstart bs r.1 r.2 hrun

/-! ## The round trip -/

/-- The files agree in what a manifest is to keep. -/
structure SameFile (x y : Int32 × FileMetaData) : Prop where
  level : x.1 = y.1
  number : x.2.fd.getNumber = y.2.fd.getNumber
  pathId : x.2.fd.getPathId = y.2.fd.getPathId
  fileSize : x.2.fd.fileSize = y.2.fd.fileSize
  smallest : x.2.smallest = y.2.smallest
  largest : x.2.largest = y.2.largest
  smallestSeqno : x.2.fd.smallestSeqno = y.2.fd.smallestSeqno
  largestSeqno : x.2.fd.largestSeqno = y.2.fd.largestSeqno
  markedForCompaction : x.2.markedForCompaction = y.2.markedForCompaction
  isNvmLevel0 : x.2.isNvmLevel0 = y.2.isNvmLevel0
  nvm : x.2.isNvmLevel0 = true → x.2.firstKeyIndex = y.2.firstKeyIndex ∧
    x.2.nvmSstableIndex = y.2.nvmSstableIndex ∧ x.2.keysNum = y.2.keysNum ∧
    x.2.keyPointFilenum = y.2.keyPointFilenum ∧ x.2.rawFileSize = y.2.rawFileSize ∧
    x.2.nvmMetaSize = y.2.nvmMetaSize

structure SameEdit (e e' : VersionEdit) : Prop where
  comparator : e.comparator = e'.comparator
  logNumber : e.logNumber = e'.logNumber
  prevLogNumber : e.prevLogNumber = e'.prevLogNumber
  nextFileNumber : e.nextFileNumber = e'.nextFileNumber
  lastSequence : e.lastSequence = e'.lastSequence
  maxColumnFamily : e.maxColumnFamily = e'.maxColumnFamily
  minLogNumberToKeep : e.minLogNumberToKeep = e'.minLogNumberToKeep
  deletedFiles : e.deletedFiles = e'.deletedFiles
  newFiles : List.Forall₂ SameFile e.newFiles e'.newFiles
  columnFamily : e.columnFamily = e'.columnFamily
  columnFamilyAdd : e.columnFamilyAdd = e'.columnFamilyAdd
  isColumnFamilyDrop : e.isColumnFamilyDrop = e'.isColumnFamilyDrop
  atomicGroup : e.atomicGroup = e'.atomicGroup

/-- The number leaves the bits of the path id empty. -/
theorem FileDescriptor.getPathId_new_zero (fd : FileDescriptor) :
    (FileDescriptor.new fd.getNumber 0 fd.fileSize fd.smallestSeqno fd.largestSeqno).getPathId
      = 0 := by
  refine UInt32.toNat_inj.mp ?_
  have hone : (fileNumberMask + 1).toNat = 2 ^ 62 := rfl
  have hmask : fileNumberMask.toNat = 2 ^ 62 - 1 := rfl
  show (UInt64.toUInt32 ((fd.packedNumberAndPathId &&& fileNumberMask ||| 0 * (fileNumberMask + 1))
    / (fileNumberMask + 1))).toNat = 0
  rw [UInt64.zero_mul, UInt64.or_zero, UInt64.toNat_toUInt32, UInt64.toNat_div, UInt64.toNat_and,
    hone, hmask, Nat.and_two_pow_sub_one_eq_mod]
  omega

/-- A file comes back exactly if the store of its flag spares its fields. -/
theorem sameFile_storedFile_iff (file : Int32 × FileMetaData) :
    SameFile file (file.1, storedFile layout file.2) ↔
      (file.2.isNvmLevel0 = true → file.2.nvmFields.Spared layout) := by
  obtain ⟨level, f⟩ := file
  cases hnvm : f.isNvmLevel0 with
  | false =>
    have hstored : storedFile layout f = { fd := f.fd, smallest := f.smallest, largest := f.largest
                                           markedForCompaction := f.markedForCompaction } := by
      rw [storedFile, hnvm]
      rfl
    rw [hstored]
    refine ⟨fun _ h => absurd h Bool.false_ne_true, ?_⟩
    intro _
    refine ⟨rfl, rfl, rfl, rfl, rfl, rfl, rfl, rfl, rfl, hnvm, ?_⟩
    intro htrue
    exact absurd (hnvm.symm.trans htrue) Bool.false_ne_true
  | true =>
  have hstored : storedFile layout f = (f.nvmFields.storeFlag 0 layout).file
      { f.bounds.file f.fd.getNumber (f.nvmFields.storeFlag 0 layout).pathId with
        markedForCompaction := f.markedForCompaction } := by
    rw [storedFile, if_pos hnvm]
  have hspared := NvmFields.storeFlag_eq_iff false f.nvmFields layout
  rw [if_neg Bool.false_ne_true] at hspared
  rw [hstored, ← hspared]
  constructor
  · intro h _
    obtain ⟨h1, h2, h3, h4, h5, h6⟩ := h.nvm hnvm
    have hpath : (f.nvmFields.storeFlag 0 layout).pathId = f.fd.getPathId := by
      rcases f.nvmFields.pathId_storeFlag f.fd.getPathId_lt layout with hkept | hzero
      · exact hkept
      · have hsame := h.pathId
        replace hzero : (f.nvmFields.storeFlag 0 layout).pathId = 0 := hzero
        rw [hzero] at hsame ⊢
        exact (hsame.trans f.fd.getPathId_new_zero).symm
    revert h1 h2 h3 h4 h5 h6 hpath
    generalize f.nvmFields.storeFlag 0 layout = n
    intro h1 h2 h3 h4 h5 h6 hpath
    cases n
    simp only [FileMetaData.nvmFields, NvmFields.mk.injEq]
    exact ⟨h1.symm, h2.symm, h3.symm, h4.symm, h5.symm, h6.symm, hpath⟩
  · intro h
    rw [h rfl]
    have hbounds : f.bounds.file f.fd.getNumber f.nvmFields.pathId
        = { fd := f.fd, smallest := f.smallest, largest := f.largest } := f.bounds_file
    rw [hbounds]
    exact ⟨rfl, rfl, rfl, rfl, rfl, rfl, rfl, rfl, rfl, hnvm, fun _ =>
      ⟨rfl, rfl, rfl, rfl, rfl, rfl⟩⟩

theorem sameEdit_storedEdit_iff (e : VersionEdit) :
    SameEdit e (storedEdit layout e) ↔ (e.minLogNumberToKeep = none ∨ e.newFiles ≠ []) ∧
      ∀ file ∈ e.newFiles, file.2.isNvmLevel0 = true → file.2.nvmFields.Spared layout := by
  have hall : List.Forall₂ SameFile e.newFiles (storedFiles layout e.newFiles) ↔
      ∀ file ∈ e.newFiles, file.2.isNvmLevel0 = true → file.2.nvmFields.Spared layout := by
    rw [storedFiles, List.forall₂_map_right_iff, List.forall₂_same]
    exact forall₂_congr fun file _ => sameFile_storedFile_iff file
  constructor
  · intro h
    refine ⟨?_, hall.mp h.newFiles⟩
    by_cases hfiles : e.newFiles = []
    · refine .inl (h.minLogNumberToKeep.trans ?_)
      show (if e.newFiles = [] then none else e.minLogNumberToKeep) = none
      rw [if_pos hfiles]
    · exact .inr hfiles
  rintro ⟨h, hfiles⟩
  refine ⟨rfl, rfl, rfl, rfl, rfl, rfl, ?_, rfl, hall.mpr hfiles, rfl, rfl, rfl, rfl⟩
  show e.minLogNumberToKeep = if e.newFiles = [] then none else e.minLogNumberToKeep
  rcases h with h | h
  · rw [h, ite_self]
  · rw [if_neg h]

theorem short_of_sameFiles {files files' : List (Int32 × FileMetaData)}
    (h : List.Forall₂ SameFile files files') (hshort : ∀ file ∈ files', file.2.Short) :
    ∀ file ∈ files, file.2.Short := by
  induction h with
  | nil => exact hshort
  | @cons x y xs ys hxy _ ih =>
  have hy := hshort y (.head _)
  intro file hfile
  rcases mem_cons.mp hfile with rfl | hfile
  · exact ⟨hxy.smallest ▸ hy.smallest, hxy.largest ▸ hy.largest⟩
  · exact ih (fun z hz => hshort z (.tail y hz)) file hfile

/-- Strings of the one edit are strings of the other. -/
theorem Short.of_sameEdit (h : SameEdit e e') (hshort : Short e') : Short e := by
  refine ⟨?_, ?_, ?_⟩
  · rw [h.comparator]
    exact hshort.comparator
  · exact short_of_sameFiles h.newFiles hshort.newFiles
  · rw [h.columnFamilyAdd]
    exact hshort.columnFamilyAdd

/-- **ROUND TRIP**: an edit that can be encoded is decoded to an edit with the same
    fields exactly if its strings are below 4 GB, a log number to keep comes with a
    new file, and the fields of its NVM files are zero where they lie behind the flag. -/
theorem roundTrip_iff (layout : FlagLayout) {e : VersionEdit} {bs : List UInt8}
    (henc : encodeTo e = some bs) :
    (∃ e', decodeFrom layout bs = .ok e' ∧ SameEdit e e') ↔
      Short e ∧ (e.minLogNumberToKeep = none ∨ e.newFiles ≠ []) ∧
        ∀ file ∈ e.newFiles, file.2.isNvmLevel0 = true → file.2.nvmFields.Spared layout := by
  constructor
  · rintro ⟨e', hdec, hsame⟩
    have hshort : Short e := Short.of_sameEdit hsame (short_of_decodeFrom hdec)
    rw [decodeFrom_encodeTo henc hshort] at hdec
    cases hdec
    exact ⟨hshort, (sameEdit_storedEdit_iff e).mp hsame⟩
  · rintro ⟨hshort, hfields⟩
    exact ⟨storedEdit layout e, decodeFrom_encodeTo henc hshort,
      (sameEdit_storedEdit_iff e).mpr hfields⟩

/-- An edit of an NVM table, with a log number to keep that rides on it. -/
def nvmEdit : VersionEdit :=
  { logNumber := some 3
    minLogNumberToKeep := some 2
    newFiles := [(0, { fd := FileDescriptor.new 7 0 26 1 1
                       smallest := [5, 1, 1, 0, 0, 0, 0, 0, 0]
                       largest := [5, 1, 1, 0, 0, 0, 0, 0, 0]
                       isNvmLevel0 := true, nvmSstableIndex := 0, keysNum := 1
                       rawFileSize := 26, nvmMetaSize := 37 })] }

theorem short_nvmEdit : Short nvmEdit := by
  refine ⟨nofun, ?_, nofun⟩
  intro file hfile
  rw [mem_singleton.mp hfile]
  exact ⟨by decide, by decide⟩

/-- With `key_point_filenum`, which is still 0, behind the flag. -/
theorem roundTrip_iff_nvmEdit :
    ∃ bs e', encodeTo nvmEdit = some bs ∧ decodeFrom (some (.keyPointFilenum, 2)) bs = .ok e' ∧
      SameEdit nvmEdit e' := by
  obtain ⟨bs, henc⟩ : ∃ bs, encodeTo nvmEdit = some bs := ⟨_, rfl⟩
  have hspared : ∀ file ∈ nvmEdit.newFiles, file.2.isNvmLevel0 = true →
      file.2.nvmFields.Spared (some (.keyPointFilenum, 2)) := by
    intro file hfile _
    rw [mem_singleton.mp hfile]
    rfl
  obtain ⟨e', hdec, hsame⟩ := (roundTrip_iff _ henc).mpr
    ⟨short_nvmEdit, .inr (cons_ne_nil _ _), hspared⟩
  exact ⟨bs, e', henc, hdec, hsame⟩

/-- Without a new file the log number to keep is lost: nothing is written. -/
theorem min_log_number_lost :
    encodeTo { minLogNumberToKeep := some 5 } = some [] ∧ ∀ layout,
      decodeFrom layout [] = .ok {} ∧
      ¬ ∃ e', decodeFrom layout [] = .ok e' ∧ SameEdit { minLogNumberToKeep := some 5 } e' := by
  refine ⟨rfl, ?_⟩
  intro layout
  have hdec : decodeFrom layout [] = .ok {} := rfl
  refine ⟨hdec, ?_⟩
  rintro ⟨e', he', hsame⟩
  rw [hdec] at he'
  cases he'
  exact nomatch hsame.minLogNumberToKeep

/-- With `nvm_meta_size` behind the flag the edit of an NVM table comes back with size 0. -/
theorem nvm_meta_size_lost :
    ∃ bs e', encodeTo nvmEdit = some bs ∧ decodeFrom (some (.nvmMetaSize, 2)) bs = .ok e' ∧
      e'.newFiles.map (·.2.nvmMetaSize) = [0] ∧ ¬ SameEdit nvmEdit e' := by
  refine ⟨_, _, rfl, decodeFrom_encodeTo rfl short_nvmEdit, rfl, ?_⟩
  intro hsame
  have hspared := ((sameEdit_storedEdit_iff nvmEdit).mp hsame).2 _ (.head _) rfl
  revert hspared
  show ¬ 37 % 256 ^ 3 = 0
  decide

end VersionEditCoding
