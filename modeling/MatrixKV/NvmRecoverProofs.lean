import MatrixKV.NvmFlushProofs

/-! # Recovering the NVM module — NvmCfModule::RecoverFromStorageInfo

    After a restart the slots hold their bytes, but the bitmap and the directory
    are empty.  Both are rebuilt from the level-0 files of the recovered version:
    slot, number of keys and pointer target come from the file metadata, the key
    metadata is read back from the slot.

    * `TableOK` ties a listed file to its directory entry and to the bytes in its
      slot.
    * `recoverFiles_spec` — recovery rebuilds exactly the entries of the
      listed files, in the order of the version. -/

namespace NvmRecover

open List DbFormat SstableMeta FixedCoding PersistentSstable L0TableBuilder NvmFlush

variable {K : Type} [UserKeyCodec K]

/-- The entry recovery reads for a file. -/
def recoveredEntry (pool : Pool) (f : FileMetaData K) : FileEntry K :=
  { filenum := f.number
    sstableIndex := f.nvmSstableIndex
    keysMeta := decodeMetas pool.raw f.keysNum
      (pool.getIndexPtr f.nvmSstableIndex + f.rawFileSize)
    keyPointFilenum := f.keyPointFilenum }

/-- One round of the loop: a number that is already known is skipped. -/
def recoverFile (f : FileMetaData K) (cf : NvmCf K) : NvmCf K :=
  match cf.dir.findFile f.number with
  | some _ => cf
  | none =>
    { dir := (cf.dir.addFile f.number f.nvmSstableIndex).setFile (recoveredEntry cf.pool f)
      pool := cf.pool.recoverAddSstable f.nvmSstableIndex }

/-- `RecoverFromStorageInfo`: the files are taken up from the oldest to the
    newest; a pool that was only just created has nothing to recover. -/
def recoverFromStorageInfo (cf : NvmCf K) (openByCreat : Bool) (l0 : List (FileMetaData K)) :
    NvmCf K :=
  if l0 = [] then cf
  else if openByCreat then cf
  else l0.foldr recoverFile cf

/-- The sizes the constructor of the module and the write stalls go by. -/
structure SizeOptions where
  writeBufferSize : Nat
  level0ColumnCompactionStopSize : Nat
  level0ColumnCompactionSlowdownSize : Nat
  deriving DecidableEq, Repr

/-- `level0_table_num` of the constructor, in `uint64_t` arithmetic. -/
def SizeOptions.level0TableNum (opts : SizeOptions) : Nat :=
  (opts.level0ColumnCompactionStopSize / opts.writeBufferSize + 1) * 2 % 2 ^ 64

/-- `each_size` of the pool: room for a memtable and 8 MB. -/
def SizeOptions.eachSize (opts : SizeOptions) : Nat :=
  (opts.writeBufferSize + 8 * 1024 * 1024) % 2 ^ 64

/-- The constructor of `NvmCfModule` on a pool file that holds the bytes `raw`. -/
def newNvmCfModule (opts : SizeOptions) (raw : Memory) : NvmCf K :=
  { dir := {}
    pool := { raw := raw, bitmap := List.replicate opts.level0TableNum false
              eachSize := opts.eachSize, useNum := 0 } }

/-- The module as its constructor leaves it on an existing pool file. -/
def reopen (pool : Pool) : NvmCf K :=
  { dir := {}
    pool := { pool with bitmap := List.replicate pool.num false, useNum := 0 } }

/-! ## A listed table -/

/-- The file metadata `f` describes the directory entry `e` and where its key
    metadata lies, and leaves a key to read. -/
structure TableOK (pool : Pool) (f : FileMetaData K) (e : FileEntry K) : Prop where
  number : e.filenum = f.number
  slot : e.sstableIndex = f.nvmSstableIndex
  keysNum : e.keysNum = f.keysNum
  point : e.keyPointFilenum = f.keyPointFilenum
  remaining : f.firstKeyIndex < e.keysNum
  nvm : f.isNvmLevel0 = true
  room : f.rawFileSize + (encodeMetas e.keysMeta).length ≤ pool.eachSize
  stored : Stored pool.raw (pool.getIndexPtr e.sstableIndex + f.rawFileSize)
    (encodeMetas e.keysMeta)
  fits : ∀ m ∈ e.keysMeta, MetaFits m

/-- A pool with the same bytes in the table's slot describes it as well. -/
theorem TableOK.of_pool {pool pool' : Pool} {f : FileMetaData K} {e : FileEntry K}
    (h : TableOK pool f e) (hsize : pool'.eachSize = pool.eachSize)
    (hraw : ∀ pos len, pos + len ≤ pool.eachSize →
      readBytes pool'.raw (pool.getIndexPtr e.sstableIndex + pos) len
        = readBytes pool.raw (pool.getIndexPtr e.sstableIndex + pos) len) : TableOK pool' f e := by
  have hptr : pool'.getIndexPtr e.sstableIndex = pool.getIndexPtr e.sstableIndex := by
    rw [Pool.getIndexPtr, Pool.getIndexPtr, hsize]
  refine ⟨h.number, h.slot, h.keysNum, h.point, h.remaining, h.nvm, ?_, ?_, h.fits⟩
  · rw [hsize]
    exact h.room
  · rw [Stored, hptr, hraw _ _ h.room]
    exact h.stored

/-- A table is read back as it was. -/
theorem recoveredEntry_eq {pool : Pool} {f : FileMetaData K} {e : FileEntry K}
    (h : TableOK pool f e) : recoveredEntry pool f = e := by
  have hmetas : decodeMetas pool.raw f.keysNum
      (pool.getIndexPtr f.nvmSstableIndex + f.rawFileSize) = e.keysMeta := by
    rw [← h.keysNum, ← h.slot]
    exact decodeMetas_of_stored e.keysMeta _ h.stored h.fits
  rw [recoveredEntry, hmetas, ← h.number, ← h.slot, ← h.point]

/-! ## Recovery -/

omit [UserKeyCodec K] in
theorem used_reopen (pool : Pool) (i : Nat) : ¬ (reopen (K := K) pool).pool.Used i := by
  intro h
  have hmem := mem_of_getElem? h
  cases (mem_replicate.mp hmem).2

omit [UserKeyCodec K] in
/-- A free slot in range is taken up. -/
theorem recoverAddSstable_spec (pool : Pool) (index : Nat) (hlt : index < pool.num)
    (hfree : ¬ pool.Used index) :
    (pool.recoverAddSstable index).raw = pool.raw ∧
    (pool.recoverAddSstable index).eachSize = pool.eachSize ∧
    (pool.recoverAddSstable index).num = pool.num ∧
    ∀ i, (pool.recoverAddSstable index).Used i ↔ i = index ∨ pool.Used i := by
  have hget : pool.bitmap[index]? = some false := by
    cases hb : pool.bitmap[index]? with
    | none => exact absurd hlt (not_lt.mpr (getElem?_eq_none_iff.mp hb))
    | some b =>
    cases b with
    | false => rfl
    | true => exact absurd hb hfree
  have heq : pool.recoverAddSstable index = { pool with
      bitmap := pool.bitmap.set index true, useNum := (pool.useNum + 1) % 2 ^ 64 } := by
    simp only [Pool.recoverAddSstable, hget]
  rw [heq]
  exact ⟨rfl, rfl, length_set .., fun i => used_set_iff pool hget i _⟩

/-- **RECOVERY** of tables with different numbers and slots rebuilds their
    entries in order and marks their slots. -/
theorem recoverFiles_spec (pool : Pool) {l0 : List (FileMetaData K)} {es : List (FileEntry K)}
    (h : List.Forall₂ (TableOK pool) l0 es) (hnum : (es.map FileEntry.filenum).Nodup)
    (hslot : (es.map FileEntry.sstableIndex).Nodup)
    (hlt : ∀ e ∈ es, e.sstableIndex < pool.num) :
    (l0.foldr recoverFile (reopen pool)).dir.files = es ∧
    (l0.foldr recoverFile (reopen pool)).pool.raw = pool.raw ∧
    (l0.foldr recoverFile (reopen pool)).pool.eachSize = pool.eachSize ∧
    (l0.foldr recoverFile (reopen pool)).pool.num = pool.num ∧
    ∀ i, (l0.foldr recoverFile (reopen pool)).pool.Used i ↔ ∃ e ∈ es, e.sstableIndex = i := by
  induction h with
  | nil =>
    refine ⟨rfl, rfl, rfl, length_replicate, ?_⟩
    intro i
    exact iff_of_false (used_reopen pool i) (by simp)
  | @cons f e l0 es hfe _ ih =>
  obtain ⟨hnum1, hnum2⟩ := nodup_cons.mp hnum
  obtain ⟨hslot1, hslot2⟩ := nodup_cons.mp hslot
  obtain ⟨hfiles, hraw, hsize, hlen, hused⟩ :=
    ih hnum2 hslot2 (fun x hx => hlt x (.tail e hx))
  rw [foldr_cons]
  have hpool := recoverAddSstable_spec
    (l0.foldr recoverFile (reopen pool)).pool f.nvmSstableIndex
    (by rw [hlen, ← hfe.slot]; exact hlt e (.head _)) (by
      rw [hused]
      rintro ⟨x, hx, hxs⟩
      exact hslot1 (mem_map.mpr ⟨x, hx, hxs.trans hfe.slot.symm⟩))
  generalize l0.foldr recoverFile (reopen pool) = cf at *
  -- the number is not known yet, for it is not among the older ones
  have hfind : cf.dir.findFile f.number = none := by
    rw [SstableMetadata.findFile, hfiles, find?_eq_none]
    intro x hx hxn
    refine hnum1 (mem_map.mpr ⟨x, hx, ?_⟩)
    rw [hfe.number]
    simpa using hxn
  have hentry : recoveredEntry cf.pool f = e := by
    rw [← recoveredEntry_eq hfe, recoveredEntry, recoveredEntry, Pool.getIndexPtr,
      Pool.getIndexPtr, hraw, hsize]
  simp only [recoverFile, hfind, hentry]
  refine ⟨?_, hpool.1.trans hraw, hpool.2.1.trans hsize, hpool.2.2.1.trans hlen, ?_⟩
  · show replaceFile e ({ filenum := f.number, sstableIndex := f.nvmSstableIndex } ::
      cf.dir.files) = _
    rw [replaceFile, if_pos hfe.number.symm, hfiles]
  · intro i
    rw [hpool.2.2.2, hused, ← hfe.slot]
    simp [eq_comm]

end NvmRecover
