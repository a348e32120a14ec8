import MatrixKV.CompactionSetProofs
import MatrixKV.WriteStallProofs

/-! # Size accounting of partly compacted tables — file_size of level 0

    The builder sets the size of a table, the picker sums up what it takes from it,
    and `AddInputDeletions` subtracts the one from the other.  Level 0 is measured by
    the sizes that are left.

    * `Accounted` — the size of a file is the size of the keys from
      `first_key_index` on, its raw size that of all keys.
    * `Inv.step` — every step of flushes and column compactions keeps the account.
    * **`fileSizes_accounted`**: in every reachable state every file is accounted for. -/

namespace SizeAccounting

open List DbFormat SstableMeta PersistentSstable KeysMerge Overlap L0TableBuilder NvmFlush
  ColumnPick ColumnEntries ColumnRows ColumnInstall ColumnPrefix VersionBuilder NvmRun

variable {K : Type}

def metasSize (ms : List (KeysMetadata K)) : Nat := (ms.map KeysMetadata.size).sum

/-- The bytes of some entries of level 0. -/
def entriesSize (xs : List (L0Entry K)) : Nat := metasSize (xs.map L0Entry.keyMeta)

/-- The size of the file is the size of its keys at the indices
    `[first_key_index, keys_num)`, the raw size that of all its keys. -/
structure Accounted (sst : SstableMetadata K) (f : FileMetaData K) : Prop where
  found : sst.findFile f.number = some (entryOf sst f)
  keysNum : f.keysNum = (entryOf sst f).keysNum
  fileSize : f.fileSize = metasSize
    (((entryOf sst f).keysMeta.drop f.firstKeyIndex).take (f.keysNum - f.firstKeyIndex))
  rawFileSize : f.rawFileSize = metasSize (entryOf sst f).keysMeta

/-! ## Runs -/

structure State (K : Type) where
  db : DbState K
  /-- the column compaction between its pick and its end -/
  running : Option (ColumnCompactionItem K) := none

/-- The directory of the module is replaced. -/
def State.setDir (s : State K) (dir : SstableMetadata K) : State K :=
  { s with db := { s.db with cf := { s.db.cf with dir := dir } } }

section Run

variable [LinearOrder K] [UserKeyCodec K]

inductive Step : State K → State K → Prop
  /-- a flush job takes its file number -/
  | takeNumber (s : State K) :
      Step s { s with db := { s.db with
        nextFileNumber := s.db.nextFileNumber + 1
        picked := s.db.nextFileNumber :: s.db.picked } }
  /-- a flush job builds its table, with success or not; tombstones are no pairs -/
  | build (s : State K) (inp : FlushInput K) (res : FlushResult K)
      (hpicked : inp.number ∈ s.db.picked) (hinp : FlushOK inp)
      (hpoints : ∀ p ∈ inp.pairs, p.1.type ≠ .rangeDeletion)
      (hrun : buildInsertNvm s.db.cf inp = some res) :
      Step s { s with db := { s.db with
        cf := res.cf
        picked := s.db.picked.erase inp.number
        built := flushedFiles inp.number res ++ s.db.built } }
  /-- the edit of a finished flush is installed -/
  | install (s : State K) (f : FileMetaData K) (hbuilt : f ∈ s.db.built) :
      Step s { s with db := { s.db with
        built := s.db.built.erase f
        current := applyEdit s.db.current { newFiles := [f] }
        old := s.db.current :: s.db.old
        loggedFileNumber := s.db.nextFileNumber } }
  /-- a column compaction is picked, one at a time -/
  | pickColumn (s : State K) (opts : NvmCfOptions) (level1 : List (FileMetaData K))
      (hidle : s.running = none) (hl1 : LevelSorted level1) :
      Step s { s.setDir (pickColumnCompaction opts s.db.cf.dir ⟨s.db.current, level1⟩).1 with
        running := (pickColumnCompaction opts s.db.cf.dir ⟨s.db.current, level1⟩).2 }
  /-- its edit is installed -/
  | installColumn (s : State K) (item : ColumnCompactionItem K) (hrun : s.running = some item) :
      Step s
        { db := { (s.setDir (CompactionSet.installColumnCompactionItem s.db.cf.dir item)).db with
            current := applyEdit s.db.current (addInputDeletions item).1
            old := s.db.current :: s.db.old
            loggedFileNumber := s.db.nextFileNumber } }
  /-- its edit is not written, but `InstallColumnCompactionItem` is called -/
  | notLogged (s : State K) (item : ColumnCompactionItem K) (hrun : s.running = some item) :
      Step s { s.setDir (CompactionSet.installColumnCompactionItem s.db.cf.dir item) with
        running := none }
  /-- it fails or is given up -/
  | fail (s : State K) : Step s { s with running := none }
  /-- a reader lets go of an old version -/
  | release (s : State K) (v : List (FileMetaData K)) :
      Step s { s with db := { s.db with old := s.db.old.erase v } }
  /-- a table that nobody lists is deleted -/
  | delete (s : State K) (number : Nat) (hobsolete : ∀ f, s.db.Lists f → f.number ≠ number) :
      Step s { s with db := { s.db with cf := deleteL0file s.db.cf number } }

/-- A new family: an empty module, over a pool whose length is a `size_t`. -/
structure Initial (s : State K) : Prop where
  files : s.db.cf.dir.files = []
  mapped : s.db.cf.pool.num * s.db.cf.pool.eachSize < 2 ^ 64
  picked : s.db.picked = []
  built : s.db.built = []
  current : s.db.current = []
  old : s.db.old = []
  running : s.running = none

inductive Reachable : State K → Prop
  | initial (s : State K) (h : Initial s) : Reachable s
  | step (s s' : State K) (hrun : Reachable s) (hstep : Step s s') : Reachable s'

end Run

/-! ## Sizes of keys -/

theorem metasSize_append (ms ms' : List (KeysMetadata K)) :
    metasSize (ms ++ ms') = metasSize ms + metasSize ms' := by
  rw [metasSize, map_append, sum_append]
  rfl

/-- What is taken from the front and what is left. -/
theorem metasSize_take_add_drop (ms : List (KeysMetadata K)) (n : Nat) :
    metasSize (ms.take n) + metasSize (ms.drop n) = metasSize ms := by
  rw [← metasSize_append, take_append_drop]

theorem metasSize_drop_le (ms : List (KeysMetadata K)) (n : Nat) :
    metasSize (ms.drop n) ≤ metasSize ms := by
  have h := metasSize_take_add_drop ms n
  omega

theorem entriesSize_flatMap {α : Type} (xs : List α) (g : α → List (L0Entry K)) :
    entriesSize (xs.flatMap g) = (xs.map fun a => entriesSize (g a)).sum := by
  induction xs with
  | nil => rfl
  | cons a xs ih =>
    rw [flatMap_cons, entriesSize, map_append, metasSize_append, map_cons, sum_cons, ← ih]
    rfl

/-- The bytes a reader sees of a table. -/
theorem entriesSize_entriesOf (e : FileEntry K) (first : Nat) :
    entriesSize (entriesOf e first e.keysNum) = metasSize (e.keysMeta.drop first) := by
  have hall : (e.keysMeta.zipIdx.drop first).take e.keysNum = e.keysMeta.zipIdx.drop first := by
    refine take_of_length_le ?_
    rw [length_drop, length_zipIdx, FileEntry.keysNum]
    exact Nat.sub_le _ _
  rw [entriesSize, entriesOf, hall, map_map]
  show metasSize ((e.keysMeta.zipIdx.drop first).map Prod.fst) = _
  rw [map_drop, zipIdx_map_fst]

/-! ## The builder -/

/-- The file describes a table with keys left. -/
structure Describes (e : FileEntry K) (f : FileMetaData K) : Prop where
  number : e.filenum = f.number
  nvm : f.isNvmLevel0 = true
  keysNum : f.keysNum = e.keysNum
  remaining : f.firstKeyIndex < e.keysNum
  fileSize : f.fileSize = metasSize (e.keysMeta.drop f.firstKeyIndex)
  rawFileSize : f.rawFileSize = metasSize e.keysMeta

variable {cf : NvmCf K}

section Build

variable [UserKeyCodec K]

theorem metasSize_layout (ps : List (Pair K)) (offset) :
    metasSize (layout offset ps) = totalSize ps := by
  induction ps generalizing offset with
  | nil => rfl
  | cons p ps ih =>
  have htail := ih (offset + recordSize p)
  rw [metasSize] at htail
  rw [layout, metasSize, map_cons, sum_cons, htail, totalSize, totalSize, map_cons, sum_cons]

theorem offset_flushBuilder (cf : NvmCf K) (inp : FlushInput K) :
    (flushBuilder cf inp).offset = totalSize (kept cf inp) := by
  rw [flushBuilder_eq, Builder.offset, length_flatMap_record]

variable [LinearOrder K]

/-- `UpdateKeyNext` leaves the sizes alone. -/
theorem metasSize_flushFile (cf : NvmCf K) (inp : FlushInput K) (index : Nat) :
    metasSize (flushFile cf inp index).keysMeta = totalSize (kept cf inp) := by
  have h := congrArg (List.map (fun c => c.2.2)) (flushFile_spec cf inp index).2.2
  rw [map_map, map_map] at h
  rw [← metasSize_layout (kept cf inp) 0]
  exact congrArg List.sum h

theorem points_flushFile {inp : FlushInput K} (index : Nat)
    (hpoints : ∀ p ∈ inp.pairs, p.1.type ≠ .rangeDeletion) :
    ∀ m ∈ (flushFile cf inp index).keysMeta, m.key.type ≠ .rangeDeletion := by
  intro m hm
  have hkey : m.key ∈ (kept cf inp).map Prod.fst := by
    rw [← flushFile_keys cf inp index]
    exact mem_map_of_mem hm
  obtain ⟨p, hp, heq⟩ := mem_map.mp hkey
  rw [← heq]
  exact hpoints p ((fitting_sublist _ _ _).subset hp)

/-- What a flush that got a slot adds. -/
structure TableAdded (cf : NvmCf K) (inp : FlushInput K) (res : FlushResult K)
    (e : FileEntry K) : Prop extends NvmRun.Added cf inp res e where
  sorted : SortedKeys (e.keysMeta.map KeysMetadata.key)
  points : ∀ m ∈ e.keysMeta, m.key.type ≠ .rangeDeletion
  fits : metasSize e.keysMeta ≤ cf.pool.eachSize
  flushed : ∀ f ∈ flushedFiles inp.number res, Describes e f

/-- **ONE BUILD**: nothing happens to the module, or it has a new table whose file
    is accounted for. -/
theorem build_table {inp : FlushInput K} {res : FlushResult K}
    (hrun : buildInsertNvm cf inp = some res) (hinp : FlushOK inp)
    (hpoints : ∀ p ∈ inp.pairs, p.1.type ≠ .rangeDeletion) :
    (res.cf = cf ∧ flushedFiles inp.number res = []) ∨ ∃ e, TableAdded cf inp res e := by
  refine (build_adds hrun).imp_right fun ⟨e, h⟩ => ⟨e, { h with
    sorted := h.sortedKeys hinp
    points := ?_
    fits := ?_
    flushed := ?_ }⟩
  · rcases h.table with hnil | heq
    · exact fun m hm => nomatch hnil ▸ hm
    · exact heq ▸ points_flushFile _ hpoints
  · rcases h.table with hnil | heq
    · rw [hnil]
      exact Nat.zero_le _
    · have hle := totalSize_fitting_le cf.pool.eachSize inp.pairs 0 (Nat.zero_le _)
      rw [heq, metasSize_flushFile, kept]
      omega
  · intro f hf
    have hfin := h.finished f hf
    have hsize : metasSize e.keysMeta = (flushBuilder cf inp).offset := by
      rw [hfin.entry, metasSize_flushFile, offset_flushBuilder]
    refine ⟨h.number.trans hfin.number.symm, hfin.nvm, hfin.keysNum, ?_, ?_,
      hfin.raw.trans hsize.symm⟩
    · rw [hfin.first]
      exact hfin.remaining
    · rw [hfin.first, drop_zero]
      exact hfin.size.trans hsize.symm

end Build

/-! ## The picker -/

variable {f : FileMetaData K}

section Pick

variable [LinearOrder K] {sst : SstableMetadata K} {vs : VersionStorageInfo K}

/-- The size that is kept for a chosen table is the size of its chosen keys. -/
def SizesOf (sst : SstableMetadata K) (sel : List (FileMetaData K × (Nat × Nat))) : Prop :=
  ∀ p ∈ sel, p.2.2 = metasSize (((entryOf sst p.1).keysMeta.drop p.1.firstKeyIndex).take p.2.1)

/-- The cells a cut takes from a row are the first keys of the row. -/
theorem rowCells_keyMeta {rows : List (FileMetaData K)} {taken left : List (Cell K)}
    (hsplit : cellsOf sst rows = taken ++ left) {i : Nat} (hf : rows[i]? = some f) :
    (rowCells taken i).map Cell.keyMeta
      = ((entryOf sst f).keysMeta.drop f.firstKeyIndex).take (rowCells taken i).length := by
  have hrow := cells_row (rows.map (entryOf sst)) (rows.map (·.firstKeyIndex)) (by simp) i
  rw [startRows_getElem? _ _ (f := entryOf sst f) (n := f.firstKeyIndex) (by simp [hf])
    (by simp [hf]), Option.getD_some, ← cellsOf, hsplit, filter_append] at hrow
  have hmetas := congrArg (List.map Prod.fst) hrow
  rw [map_map, map_drop, zipIdx_map_fst, map_append] at hmetas
  rw [← hmetas]
  show (rowCells taken i).map Cell.keyMeta = ((rowCells taken i).map Cell.keyMeta ++ _).take _
  rw [take_left' (length_map ..)]

/-- **ONE PICK**: the sizes of the item are those of its keys. -/
theorem pick_keysSize (opts : NvmCfOptions) (hwf : Level0 sst vs.level0)
    (hl1 : LevelSorted vs.level1) {item : ColumnCompactionItem K}
    (hpick : (pickColumnCompaction opts sst vs).2 = some item) :
    ∃ sel, Selected sst vs.level0 item sel ∧ SizesOf sst sel := by
  obtain ⟨l1, sm, x, taken, left, rfl, hsplit, -⟩ := pick_cut opts hwf hl1 hpick
  refine ⟨_, cutItem_selected hwf filter_sublist hsplit, ?_⟩
  rw [selectedRows_start]
  intro p hp
  obtain ⟨⟨f, i⟩, hmem, rfl⟩ := mem_map.mp hp
  have hf := mk_mem_zipIdx_iff_getElem?.mp (mem_filter.mp hmem).1
  show cellsSize (rowCells taken i) = metasSize
      (((entryOf sst f).keysMeta.drop f.firstKeyIndex).take
    (rowCells taken i).length)
  rw [← rowCells_keyMeta hsplit hf, metasSize, map_map]
  rfl

end Pick

/-! ## The edit -/

variable {e : FileEntry K}

/-- A chosen size is part of the file's size. -/
theorem keysSize_le (h : Describes e f) (num : Nat) :
    metasSize ((e.keysMeta.drop f.firstKeyIndex).take num) ≤ f.fileSize := by
  have hsplit := metasSize_take_add_drop (e.keysMeta.drop f.firstKeyIndex) num
  have hsize := h.fileSize
  omega

/-- **ONE CUT**: a file without its first keys is accounted for. -/
theorem cutFile_describes {f' : FileMetaData K} {num : Nat} (h : Describes e f)
    (hbound : f.firstKeyIndex + num ≤ e.keysNum) (hlt : metasSize e.keysMeta < 2 ^ 64)
    (hcut : cutFile e f num (metasSize ((e.keysMeta.drop f.firstKeyIndex).take num)) = some f') :
    Describes e f' := by
  have hspec := cutFile_spec hcut
  have hne : ¬ f.firstKeyIndex + num = e.keysNum := by
    intro hall
    rw [cutFile_eq_none_iff.mpr hall] at hcut
    exact nomatch hcut
  have hsize : f'.fileSize = metasSize (e.keysMeta.drop f'.firstKeyIndex) := by
    have hsplit := metasSize_take_add_drop (e.keysMeta.drop f.firstKeyIndex) num
    have hle := metasSize_drop_le e.keysMeta f.firstKeyIndex
    rw [drop_drop] at hsplit
    rw [cutFile, if_neg hne, Option.some.injEq] at hcut
    rw [hspec.first, ← hcut]
    show (((f.fileSize : Int) - _) % 2 ^ 64).toNat = _
    rw [h.fileSize]
    omega
  exact ⟨h.number.trans hspec.number.symm, hspec.nvm.trans h.nvm, hspec.keysNum.trans h.keysNum,
    by rw [hspec.first]; omega, hsize, hspec.raw.trans h.rawFileSize⟩

/-! ## The invariant -/

section Invariant

/-- The directory and its slots. -/
structure TablesOK (cf : NvmCf K) : Prop where
  numbers : (cf.dir.files.map FileEntry.filenum).Nodup
  slots : (cf.dir.files.map FileEntry.sstableIndex).Nodup
  used : ∀ e ∈ cf.dir.files, cf.pool.Used e.sstableIndex
  points : ∀ e ∈ cf.dir.files, ∀ m ∈ e.keysMeta, m.key.type ≠ .rangeDeletion
  fits : ∀ e ∈ cf.dir.files, metasSize e.keysMeta ≤ cf.pool.eachSize
  mapped : cf.pool.num * cf.pool.eachSize < 2 ^ 64

/-- A slot in use lies in the mapping. -/
theorem TablesOK.fits_mapped (h : TablesOK cf) (he : e ∈ cf.dir.files) :
    metasSize e.keysMeta < 2 ^ 64 := by
  have hlt : e.sstableIndex < cf.pool.num := (List.getElem?_eq_some_iff.mp (h.used e he)).1
  have hone : 1 * cf.pool.eachSize ≤ cf.pool.num * cf.pool.eachSize :=
    Nat.mul_le_mul_right _ (by omega)
  have hfits := h.fits e he
  have hmapped := h.mapped
  omega

theorem TablesOK.findFile (h : TablesOK cf) (he : e ∈ cf.dir.files) :
    cf.dir.findFile e.filenum = some e :=
  findFile_of_nodup h.numbers he

variable [LinearOrder K]

structure Inv (s : State K) : Prop where
  tables : TablesOK s.db.cf
  sorted : ∀ e ∈ s.db.cf.dir.files, SortedKeys (e.keysMeta.map KeysMetadata.key)
  numbers : ∀ e ∈ s.db.cf.dir.files,
    e.filenum < s.db.nextFileNumber ∧ e.filenum ∉ s.db.picked
  picked : ∀ n ∈ s.db.picked, n < s.db.nextFileNumber
  pickedNodup : s.db.picked.Nodup
  listed : ∀ f, s.db.Lists f → ∃ e ∈ s.db.cf.dir.files, Describes e f
  newestFirst : NewestFirst s.db.current
  distinct : (s.db.current.map FileMetaData.number).Nodup
  built : ∀ f ∈ s.db.built, ∀ g ∈ s.db.current, f.number ≠ g.number
  builtDistinct : DistinctNumbers s.db.built
  running : ∀ item, s.running = some item → ∃ sst l0 sel, Selected sst l0 item sel ∧
    SizesOf sst sel ∧ (∀ f ∈ l0, f ∈ s.db.current) ∧
    ∀ f ∈ l0, s.db.cf.dir.findFile f.number = sst.findFile f.number

section Listed

variable {s : State K} (h : Inv s)
include h

/-- A listed file describes the table that its number finds. -/
theorem Inv.entryOf_spec (hf : s.db.Lists f) :
    s.db.cf.dir.findFile f.number = some (entryOf s.db.cf.dir f) ∧
    entryOf s.db.cf.dir f ∈ s.db.cf.dir.files ∧ Describes (entryOf s.db.cf.dir f) f := by
  obtain ⟨e, he, hdesc⟩ := h.listed f hf
  have hfind : s.db.cf.dir.findFile f.number = some e := by
    rw [← hdesc.number]
    exact h.tables.findFile he
  have hentry : entryOf s.db.cf.dir f = e := by
    rw [entryOf, hfind]
    rfl
  rw [hentry]
  exact ⟨hfind, he, hdesc⟩

theorem Inv.nvmTables : NvmTables s.db.cf.dir s.db.current := by
  have hspec : ∀ f ∈ s.db.current, _ := fun f hf => h.entryOf_spec (DbState.lists_current hf)
  exact {
    nodup := h.distinct
    found := fun f hf => (hspec f hf).1
    sorted := fun f hf => h.sorted _ (hspec f hf).2.1
    remaining := fun f hf => (hspec f hf).2.2.remaining
    points := fun f hf => h.tables.points _ (hspec f hf).2.1
    newestFirst := h.newestFirst
    nvm := fun f hf => (hspec f hf).2.2.nvm
    keysNum := fun f hf => (hspec f hf).2.2.keysNum }

/-- The item of the running compaction still fits the current version. -/
theorem Inv.running_kept {item : ColumnCompactionItem K} (hrun : s.running = some item) :
    ∃ sst l0 sel, Selected sst l0 item sel ∧ SizesOf sst sel ∧
      KeptTables sst s.db.cf.dir l0 s.db.current := by
  obtain ⟨sst, l0, sel, hsel, hsizes, hmem, hfind⟩ := h.running item hrun
  refine ⟨sst, l0, sel, hsel, hsizes, h.nvmTables, hmem, ?_⟩
  intro f hf
  rw [entryOf, entryOf, hfind f hf]

/-- The item also fits a version that lists more, and a directory that finds the
    same entries. -/
theorem Inv.running_of (item : ColumnCompactionItem K) (hrun : s.running = some item)
    {dir : SstableMetadata K} {current : List (FileMetaData K)}
    (hcurrent : ∀ f ∈ s.db.current, f ∈ current)
    (hdir : ∀ f ∈ s.db.current, dir.findFile f.number = s.db.cf.dir.findFile f.number) :
    ∃ sst l0 sel, Selected sst l0 item sel ∧ SizesOf sst sel ∧ (∀ f ∈ l0, f ∈ current) ∧
      ∀ f ∈ l0, dir.findFile f.number = sst.findFile f.number := by
  obtain ⟨sst, l0, sel, hsel, hsizes, hmem, hfind⟩ := h.running item hrun
  refine ⟨sst, l0, sel, hsel, hsizes, fun f hf => hcurrent f (hmem f hf), ?_⟩
  intro f hf
  rw [hdir f (hmem f hf), hfind f hf]

end Listed

end Invariant

/-! ## Steps -/

section Steps

variable [LinearOrder K] {s : State K}

/-- The rows of the compaction set are no part of the account. -/
theorem Inv.setDir (h : Inv s) {dir : SstableMetadata K} (hfiles : dir.files = s.db.cf.dir.files)
    (running : Option (ColumnCompactionItem K))
    (hrunning : ∀ item, running = some item → ∃ sst l0 sel, Selected sst l0 item sel ∧
      SizesOf sst sel ∧ (∀ f ∈ l0, f ∈ s.db.current) ∧
      ∀ f ∈ l0, s.db.cf.dir.findFile f.number = sst.findFile f.number) :
    Inv { s.setDir dir with running := running } := by
  obtain ⟨hnumbers, hslots, hused, hpoints, hfits, hmapped⟩ := h.tables
  have hsorted := h.sorted
  have hfresh := h.numbers
  rw [← hfiles] at hnumbers hslots hused hpoints hfits hsorted hfresh
  refine ⟨⟨hnumbers, hslots, hused, hpoints, hfits, hmapped⟩, hsorted, hfresh, h.picked,
    h.pickedNodup, ?_, h.newestFirst, h.distinct, h.built, h.builtDistinct, ?_⟩
  · intro f hf
    obtain ⟨e, he, hdesc⟩ := h.listed f hf
    exact ⟨e, hfiles ▸ he, hdesc⟩
  · intro item hitem
    obtain ⟨sst, l0, sel, hsel, hsizes, hmem, hfind⟩ := hrunning item hitem
    refine ⟨sst, l0, sel, hsel, hsizes, hmem, ?_⟩
    intro f hf
    rw [← hfind f hf]
    show dir.files.find? _ = s.db.cf.dir.files.find? _
    rw [hfiles]

theorem Inv.takeNumber (h : Inv s) : Inv { s with db := { s.db with
    nextFileNumber := s.db.nextFileNumber + 1
    picked := s.db.nextFileNumber :: s.db.picked } } :=
  { h with
    numbers := fun e he => inUse_pick (h.numbers e he)
    picked := (picked_pick h.picked h.pickedNodup).1
    pickedNodup := (picked_pick h.picked h.pickedNodup).2 }

/-- A table in a free slot, under a number of its own. -/
theorem TablesOK.added [UserKeyCodec K] {inp : FlushInput K} {res : FlushResult K} (h : TablesOK cf)
    (hnew : TableAdded cf inp res e) (hnumber : ∀ o ∈ cf.dir.files, o.filenum ≠ e.filenum) :
    TablesOK res.cf := by
  obtain ⟨hnumbers, hslots⟩ := nodup_cons_entry h.numbers h.slots h.used hnew.free hnumber
  refine ⟨hnew.files ▸ hnumbers, hnew.files ▸ hslots, ?_, ?_, ?_, ?_⟩
  · rw [hnew.files]
    intro o ho
    rw [hnew.used]
    exact (mem_cons.mp ho).imp (fun heq => by rw [heq]) (fun ho => h.used o ho)
  · rw [hnew.files]
    exact forall_mem_cons.mpr ⟨hnew.points, h.points⟩
  · rw [hnew.files, hnew.slotSize]
    exact forall_mem_cons.mpr ⟨hnew.fits, h.fits⟩
  · rw [hnew.num, hnew.slotSize]
    exact h.mapped

theorem Inv.build [UserKeyCodec K] (h : Inv s) (inp : FlushInput K) (res : FlushResult K)
    (hpicked : inp.number ∈ s.db.picked) (hinp : FlushOK inp)
    (hpoints : ∀ p ∈ inp.pairs, p.1.type ≠ .rangeDeletion)
    (hrun : buildInsertNvm s.db.cf inp = some res) : Inv { s with db := { s.db with
      cf := res.cf
      picked := s.db.picked.erase inp.number
      built := flushedFiles inp.number res ++ s.db.built } } := by
  rcases build_table hrun hinp hpoints with ⟨hcf, hnone⟩ | ⟨e, hnew⟩
  · rw [hcf, hnone, nil_append]
    exact { h with
      numbers := fun o ho => inUse_erase _ (h.numbers o ho)
      picked := fun n hn => h.picked n (mem_of_mem_erase hn)
      pickedNodup := h.pickedNodup.erase _ }
  -- the number of the new table is in use nowhere else
  have hnumber : ∀ o ∈ s.db.cf.dir.files, o.filenum ≠ e.filenum := by
    intro o ho heq
    rw [hnew.number] at heq
    exact (h.numbers o ho).2 (heq ▸ hpicked)
  have hlisted : ∀ f, s.db.Lists f → f.number ≠ inp.number := by
    intro f hf heq
    obtain ⟨o, ho, hdesc⟩ := h.listed f hf
    exact hnumber o ho (by rw [hdesc.number, heq, hnew.number])
  have hold : ∀ f, s.db.Lists f → ∃ o ∈ res.cf.dir.files, Describes o f := by
    intro f hf
    obtain ⟨o, ho, hdesc⟩ := h.listed f hf
    refine ⟨o, ?_, hdesc⟩
    rw [hnew.files]
    exact .tail e ho
  exact { h with
    tables := h.tables.added hnew hnumber
    sorted := by
      show ∀ o ∈ res.cf.dir.files, _
      rw [hnew.files]
      exact forall_mem_cons.mpr ⟨hnew.sorted, h.sorted⟩
    numbers := by
      show ∀ o ∈ res.cf.dir.files, _
      rw [hnew.files]
      refine forall_mem_cons.mpr ⟨?_, fun o ho => inUse_erase _ (h.numbers o ho)⟩
      rw [hnew.number]
      exact ⟨h.picked _ hpicked, h.pickedNodup.not_mem_erase⟩
    picked := fun n hn => h.picked n (mem_of_mem_erase hn)
    pickedNodup := h.pickedNodup.erase _
    listed := by
      rintro f (hf | hf)
      · rcases mem_append.mp hf with hf | hf
        · refine ⟨e, ?_, hnew.flushed f hf⟩
          show e ∈ res.cf.dir.files
          rw [hnew.files]
          exact .head _
        · exact hold f (.inl hf)
      · exact hold f (.inr hf)
    built := by
      intro f hf g hg
      rcases mem_append.mp hf with hf | hf
      · rw [(mem_flushedFiles hf).2.2.1]
        exact (hlisted g (DbState.lists_current hg)).symm
      · exact h.built f hf g hg
    builtDistinct := distinctNumbers_flushed res h.builtDistinct
      (fun g hg => hlisted g (.inl hg))
    running := by
      intro item hitem
      refine h.running_of item hitem (fun f hf => hf) ?_
      intro f hf
      show res.cf.dir.files.find? _ = s.db.cf.dir.files.find? _
      rw [hnew.files, find?_cons_of_neg]
      intro heq
      exact hlisted f (DbState.lists_current hf)
        ((of_decide_eq_true heq).symm.trans hnew.number) }

theorem Inv.install (h : Inv s) (f : FileMetaData K) (hbuilt : f ∈ s.db.built) :
    Inv { s with db := { s.db with
      built := s.db.built.erase f
      current := applyEdit s.db.current { newFiles := [f] }
      old := s.db.current :: s.db.old
      loggedFileNumber := s.db.nextFileNumber } } := by
  obtain ⟨e, -, hdesc⟩ := h.listed f (.inl hbuilt)
  obtain ⟨hsorted, hmem⟩ := applyEdit_single h.newestFirst hdesc.nvm (h.built f hbuilt)
  exact { h with
    listed := by
      intro g hg
      rcases DbState.lists_edit erase_subset hg with hg | hg
      · rcases (hmem g).mp hg with rfl | hg
        · exact h.listed g (.inl hbuilt)
        · exact h.listed g (DbState.lists_current hg)
      · exact h.listed g hg
    newestFirst := hsorted
    distinct := by
      have hnodup : (applyEdit s.db.current { newFiles := [f] }).Nodup := by
        refine hsorted.imp ?_
        intro a b hab heq
        rw [heq] at hab
        exact lt_irrefl _ hab
      refine hnodup.map_on (applyEdit_distinct (fun g => by simp [hmem g]) (pairwise_singleton _ _)
        ?_ fun a ha b hb => inj_on_of_nodup_map h.distinct ha hb)
      intro g hg b hb heq
      rw [mem_singleton.mp hg] at heq
      exact absurd heq (h.built f hbuilt b hb)
    built := by
      intro g hg b hb
      rcases (hmem b).mp hb with rfl | hb
      · exact h.builtDistinct.ne_of_mem_erase hbuilt hg
      · exact h.built g (mem_of_mem_erase hg) b hb
    builtDistinct := h.builtDistinct.sublist erase_sublist
    running := fun item hitem => h.running_of item hitem
      (fun g hg => (hmem g).mpr (.inr hg)) (fun _ _ => rfl) }

theorem Inv.pickColumn (h : Inv s) (opts : NvmCfOptions) (level1 : List (FileMetaData K))
    (hl1 : LevelSorted level1) :
    Inv { s.setDir (pickColumnCompaction opts s.db.cf.dir ⟨s.db.current, level1⟩).1 with
      running := (pickColumnCompaction opts s.db.cf.dir ⟨s.db.current, level1⟩).2 } := by
  refine h.setDir ?_ _ ?_
  · rw [CompactionSet.pick_dir]
    exact updateCompactionState_files _ _
  · intro item hitem
    obtain ⟨sel, hsel, hsizes⟩ := @pick_keysSize K _ s.db.cf.dir ⟨s.db.current, level1⟩ opts
      h.nvmTables.toLevel0 hl1 item hitem
    exact ⟨s.db.cf.dir, s.db.current, sel, hsel, hsizes, fun f hf => hf, fun _ _ => rfl⟩

omit [LinearOrder K] in
/-- `DeleteCompactionFile` only touches the set. -/
theorem files_installColumnCompactionItem (dir : SstableMetadata K)
    (item : ColumnCompactionItem K) :
    (CompactionSet.installColumnCompactionItem dir item).files = dir.files := by
  rw [CompactionSet.installColumnCompactionItem]
  generalize (addInputDeletions item).2 = numbers
  induction numbers generalizing dir with
  | nil => rfl
  | cons n ns ih =>
    rw [foldl_cons, ih]
    rfl

/-- A table that stays, whole or cut, is accounted for. -/
theorem Inv.describes_advance (h : Inv s) {sst : SstableMetadata K} {l0 : List (FileMetaData K)}
    {item : ColumnCompactionItem K} {sel : List (FileMetaData K × (Nat × Nat))}
    (hsel : Selected sst l0 item sel) (hsizes : SizesOf sst sel)
    (hk : KeptTables sst s.db.cf.dir l0 s.db.current) {f' : FileMetaData K} (hf : f ∈ s.db.current)
    (hadv : advance s.db.cf.dir sel f = some f') : Describes (entryOf s.db.cf.dir f) f' := by
  obtain ⟨-, he, hdesc⟩ := h.entryOf_spec (DbState.lists_current hf)
  rcases advance_cases hsel hk hf with ⟨-, hsame⟩ | ⟨num, size, hp, hcut⟩
  · rw [hsame, Option.some.injEq] at hadv
    rw [← hadv]
    exact hdesc
  have hentry := hk.entry f (hsel.mem _ hp)
  have hbound : f.firstKeyIndex + num ≤ (entryOf sst f).keysNum := hsel.bound _ hp
  have hsize : size = metasSize (((entryOf sst f).keysMeta.drop f.firstKeyIndex).take num) :=
    hsizes _ hp
  rw [← hentry] at hbound hsize hcut
  rw [hcut, hsize] at hadv
  exact cutFile_describes hdesc hbound (h.tables.fits_mapped he) hadv

theorem Inv.installColumn (h : Inv s) (item : ColumnCompactionItem K)
    (hrun : s.running = some item) :
    Inv { db := { (s.setDir (CompactionSet.installColumnCompactionItem s.db.cf.dir item)).db with
      current := applyEdit s.db.current (addInputDeletions item).1
      old := s.db.current :: s.db.old
      loggedFileNumber := s.db.nextFileNumber } } := by
  obtain ⟨sst, l0, sel, hsel, hsizes, hk⟩ := h.running_kept hrun
  have hset := h.setDir (files_installColumnCompactionItem s.db.cf.dir item) none
    nofun
  have hafter := nvmTables_after hsel hk
  rw [applyEdit_eq_filterMap hsel hk]
  exact { h with
    tables := hset.tables
    sorted := hset.sorted
    numbers := hset.numbers
    listed := by
      rintro f' (hf' | ⟨v, hv, hf'⟩)
      · exact hset.listed f' (.inl hf')
      rcases mem_cons.mp hv with rfl | hv
      · obtain ⟨f, hf, hadv⟩ := mem_filterMap.mp hf'
        refine ⟨entryOf s.db.cf.dir f, ?_, h.describes_advance hsel hsizes hk hf hadv⟩
        show _ ∈ (CompactionSet.installColumnCompactionItem s.db.cf.dir item).files
        rw [files_installColumnCompactionItem]
        exact (h.entryOf_spec (DbState.lists_current hf)).2.1
      · exact hset.listed f' (.inr ⟨v, hv, hf'⟩)
    newestFirst := hafter.newestFirst
    distinct := hafter.nodup
    built := by
      intro f hf g' hg'
      obtain ⟨g, hg, hadv⟩ := mem_filterMap.mp hg'
      rw [(advance_keeps hsel hk hg hadv).1]
      exact h.built f hf g hg
    running := fun _ hitem => nomatch hitem }

theorem Inv.release (h : Inv s) (v : List (FileMetaData K)) :
    Inv { s with db := { s.db with old := s.db.old.erase v } } :=
  { h with listed := fun f hf => h.listed f (DbState.lists_release hf) }

omit [LinearOrder K] in
/-- A table leaves with its slot. -/
theorem TablesOK.deleteL0file (h : TablesOK cf) (number : Nat) :
    TablesOK (deleteL0file cf number) ∧
    ∀ o, o ∈ (NvmFlush.deleteL0file cf number).dir.files ↔
      o ∈ cf.dir.files ∧ o.filenum ≠ number := by
  rw [NvmFlush.deleteL0file]
  cases hfind : cf.dir.findFile number with
  | none =>
    refine ⟨h, ?_⟩
    intro o
    refine ⟨fun ho => ⟨ho, ?_⟩, And.left⟩
    intro heq
    exact find?_eq_none.mp hfind o ho (decide_eq_true heq)
  | some e =>
  have he : e ∈ cf.dir.files := mem_of_find?_eq_some hfind
  have henum : e.filenum = number := by simpa using find?_some hfind
  have hmem := SstableMeta.mem_deteleFile_iff h.numbers number
  have hsub : (cf.dir.deteleFile number).files.Sublist cf.dir.files := eraseP_sublist
  refine ⟨⟨h.numbers.sublist (hsub.map _), h.slots.sublist (hsub.map _), ?_,
    fun o ho => h.points o (hsub.subset ho), fun o ho => h.fits o (hsub.subset ho), ?_⟩, hmem⟩
  · intro o ho
    obtain ⟨ho, hne⟩ := (hmem o).mp ho
    refine (used_deleteSstable_iff cf.pool (h.used e he) _).mpr ⟨?_, h.used o ho⟩
    intro heq
    exact hne (inj_on_of_nodup_map h.slots ho he heq ▸ henum)
  · show (cf.pool.bitmap.modify e.sstableIndex (! ·)).length * cf.pool.eachSize < 2 ^ 64
    rw [length_modify]
    exact h.mapped

theorem Inv.delete (h : Inv s) (number : Nat)
    (hobsolete : ∀ f, s.db.Lists f → f.number ≠ number) :
    Inv { s with db := { s.db with cf := deleteL0file s.db.cf number } } := by
  obtain ⟨htables, hmem⟩ := h.tables.deleteL0file number
  have hlisted : ∀ f, s.db.Lists f →
      ∃ e ∈ (deleteL0file s.db.cf number).dir.files, Describes e f := by
    intro f hf
    obtain ⟨e, he, hdesc⟩ := h.listed f hf
    refine ⟨e, (hmem e).mpr ⟨he, ?_⟩, hdesc⟩
    rw [hdesc.number]
    exact hobsolete f hf
  refine { h with
    tables := htables
    sorted := fun e he => h.sorted e ((hmem e).mp he).1
    numbers := fun e he => h.numbers e ((hmem e).mp he).1
    listed := hlisted
    running := ?_ }
  intro item hitem
  refine h.running_of item hitem (fun f hf => hf) ?_
  intro f hf
  obtain ⟨e, he, hdesc⟩ := hlisted f (DbState.lists_current hf)
  rw [← hdesc.number, htables.findFile he, h.tables.findFile ((hmem e).mp he).1]

variable [UserKeyCodec K]

/-- **STEP**: every step keeps the account. -/
theorem Inv.step {s' : State K} (h : Inv s) (hstep : Step s s') : Inv s' := by
  cases hstep with
  | takeNumber => exact h.takeNumber
  | build inp res hpicked hinp hpoints hrun => exact h.build inp res hpicked hinp hpoints hrun
  | install f hbuilt => exact h.install f hbuilt
  | pickColumn opts level1 hidle hl1 => exact h.pickColumn opts level1 hl1
  | installColumn item hrun => exact h.installColumn item hrun
  | notLogged item hrun =>
    exact h.setDir (files_installColumnCompactionItem _ _) none nofun
  | fail =>
    exact h.setDir rfl none nofun
  | release v => exact h.release v
  | delete number hobsolete => exact h.delete number hobsolete

omit [UserKeyCodec K] in
theorem Inv.initial (h : Initial s) : Inv s where
  tables := ⟨by simp [h.files], by simp [h.files], by simp [h.files], by simp [h.files],
    by simp [h.files], h.mapped⟩
  sorted := by simp [h.files]
  numbers := by simp [h.files]
  picked := by simp [h.picked]
  pickedNodup := by rw [h.picked]; exact nodup_nil
  listed := by
    rintro f (hf | ⟨v, hv, hf⟩)
    · rw [h.built] at hf
      cases hf
    · rw [DbState.live, h.old, h.current, mem_singleton] at hv
      rw [hv] at hf
      cases hf
  newestFirst := by rw [h.current]; exact .nil
  distinct := by rw [h.current]; exact nodup_nil
  built := by simp [h.built]
  builtDistinct := by rw [h.built]; exact .nil
  running := by
    intro item hitem
    rw [h.running] at hitem
    cases hitem

/-- **RUN**: the account holds in every reachable state. -/
theorem inv_reachable (h : Reachable s) : Inv s := by
  induction h with
  | initial s h => exact Inv.initial h
  | step s s' _ hstep ih => exact ih.step hstep

end Steps

/-! ## Level 0 as a whole -/

section Level

variable [LinearOrder K] {s : State K}

/-- The sizes of the files add up to the bytes that can be read. -/
theorem Inv.sum_fileSize (h : Inv s) :
    (s.db.current.map FileMetaData.fileSize).sum
      = entriesSize (readable s.db.cf.dir s.db.current) := by
  rw [readable, entriesSize_flatMap]
  congr 1
  refine map_congr_left ?_
  intro f hf
  rw [entriesSize_entriesOf]
  exact (h.entryOf_spec (DbState.lists_current hf)).2.2.fileSize

/-- The tables of the current version lie in slots of their own. -/
theorem Inv.length_current_le (h : Inv s) : s.db.current.length ≤ s.db.cf.pool.num := by
  have hspec : ∀ f ∈ s.db.current, _ := fun f hf => h.entryOf_spec (DbState.lists_current hf)
  have hnodup : (s.db.current.map (fun f => (entryOf s.db.cf.dir f).sstableIndex)).Nodup := by
    refine (List.Nodup.of_map _ h.distinct).map_on ?_
    intro f hf g hg heq
    have hentry := inj_on_of_nodup_map h.tables.slots (hspec f hf).2.1 (hspec g hg).2.1 heq
    refine inj_on_of_nodup_map h.distinct hf hg ?_
    rw [← entryOf_filenum s.db.cf.dir f, ← entryOf_filenum s.db.cf.dir g, hentry]
  have hsub : s.db.current.map (fun f => (entryOf s.db.cf.dir f).sstableIndex)
      ⊆ List.range s.db.cf.pool.num := by
    intro i hi
    obtain ⟨f, hf, rfl⟩ := mem_map.mp hi
    exact mem_range.mpr
      (List.getElem?_eq_some_iff.mp (h.tables.used _ (hspec f hf).2.1)).1
  have hle := (subperm_of_subset hnodup hsub).length_le
  rwa [length_map, length_range] at hle

/-- The sum of the sizes does not wrap around. -/
theorem Inv.sum_fileSize_lt (h : Inv s) :
    (s.db.current.map FileMetaData.fileSize).sum < 2 ^ 64 := by
  have hle := sum_le_card_nsmul (s.db.current.map FileMetaData.fileSize)
    s.db.cf.pool.eachSize (by
      intro x hx
      obtain ⟨f, hf, rfl⟩ := mem_map.mp hx
      obtain ⟨-, he, hdesc⟩ := h.entryOf_spec (DbState.lists_current hf)
      rw [hdesc.fileSize]
      exact (metasSize_drop_le _ _).trans (h.tables.fits _ he))
  rw [length_map, nsmul_eq_mul, Nat.cast_id] at hle
  have hslots := Nat.mul_le_mul_right s.db.cf.pool.eachSize h.length_current_le
  have hmapped := h.tables.mapped
  omega

/-- Every chosen size is at most the size it is subtracted from. -/
theorem Inv.keysSize_le (h : Inv s) {item : ColumnCompactionItem K}
    (hrun : s.running = some item) :
    ∀ p ∈ item.l0CompactionFiles.zip item.keysSize, p.2 ≤ p.1.fileSize := by
  obtain ⟨sst, l0, sel, hsel, hsizes, hk⟩ := h.running_kept hrun
  rw [hsel.l0Files, hsel.keysSize, zip_map']
  intro p hp
  obtain ⟨q, hq, rfl⟩ := mem_map.mp hp
  have hcur := hk.mem _ (hsel.mem q hq)
  show q.2.2 ≤ q.1.fileSize
  rw [hsizes q hq, ← hk.entry _ (hsel.mem q hq)]
  exact SizeAccounting.keysSize_le (h.entryOf_spec (DbState.lists_current hcur)).2.2 _

theorem Inv.accounted (h : Inv s) (hf : s.db.Lists f) : Accounted s.db.cf.dir f := by
  obtain ⟨hfind, -, hdesc⟩ := h.entryOf_spec hf
  refine ⟨hfind, hdesc.keysNum, ?_, hdesc.rawFileSize⟩
  rw [take_of_length_le, hdesc.fileSize]
  rw [length_drop, hdesc.keysNum, FileEntry.keysNum]

variable [UserKeyCodec K]

/-- **SIZE ACCOUNTING**: in every run every file of every version has the size of its keys
    from `first_key_index` on and the raw size of all of them; `AddInputDeletions` never subtracts
    more than there is; and the bytes of level 0 are those of its entries that are not compacted
    yet. -/
theorem fileSizes_accounted (hreach : Reachable s) :
    (∀ v ∈ s.db.live, ∀ f ∈ v, Accounted s.db.cf.dir f) ∧
    (∀ item, s.running = some item →
      ∀ p ∈ item.l0CompactionFiles.zip item.keysSize, p.2 ≤ p.1.fileSize) ∧
    WriteStall.numLevelBytes s.db.current = entriesSize (readable s.db.cf.dir s.db.current) := by
  have h := inv_reachable hreach
  refine ⟨fun v hv f hf => h.accounted (.inr ⟨v, hv, hf⟩), fun item => h.keysSize_le, ?_⟩
  rw [WriteStall.numLevelBytes, Nat.mod_eq_of_lt h.sum_fileSize_lt]
  exact h.sum_fileSize

end Level

/-! ## A table of two keys, of which one is compacted -/

def newFamily : State (Fin 256) :=
  { db := { cf := nvmModule, nextFileNumber := 1, loggedFileNumber := 1 } }

theorem initial_newFamily : Initial newFamily := ⟨rfl, by decide, rfl, rfl, rfl, rfl, rfl⟩

def twoKeys : FlushInput (Fin 256) :=
  { number := 1, valid := true, pairs := [(⟨5, 1, .value⟩, [42]), (⟨6, 2, .value⟩, [43])]
    tombstones := [], iterStatus := .ok, pairs_of_invalid := fun h => Bool.noConfusion h }

theorem flushOK_twoKeys : FlushOK twoKeys := ⟨by decide, by decide⟩

def twoKeysFile : FileMetaData (Fin 256) :=
  { number := 1, fileSize := 52, smallest := ⟨5, 1, .value⟩, largest := ⟨6, 2, .value⟩
    smallestSeqno := 1, largestSeqno := 2, isNvmLevel0 := true, firstKeyIndex := 0
    nvmSstableIndex := 0, keysNum := 2, keyPointFilenum := 0, rawFileSize := 52
    nvmMetaSize := 74 }

/-- The compaction leaves key 6 and its 26 bytes; the old version has all 52. -/
theorem fileSizes_accounted_twoKeys :
    ∃ s : State (Fin 256), Reachable s ∧
      s.db.live.map (fun v => v.map (fun f => (f.firstKeyIndex, f.fileSize, f.rawFileSize)))
        = [[(1, 26, 52)], [(0, 52, 52)], []] ∧
      entriesSize (readable s.db.cf.dir s.db.current) = 26 ∧
      WriteStall.numLevelBytes s.db.current = entriesSize (readable s.db.cf.dir s.db.current) := by
  have hreach : Reachable _ := .step _ _ (.step _ _ (.step _ _ (.step _ _ (.step _ _
    (.initial newFamily initial_newFamily) (.takeNumber _))
    (.build _ twoKeys _ (by decide) flushOK_twoKeys (by decide) rfl))
    (.install _ twoKeysFile (by decide)))
    (.pickColumn _ { splitOptions with targetFileSizeBase := 6 * 1024 * 1024 + 20 } [] rfl
      ⟨nofun, .nil⟩))
    (.installColumn _ _ rfl)
  exact ⟨_, hreach, by decide, by decide, (fileSizes_accounted hreach).2.2⟩

end SizeAccounting
