import MatrixKV.ColumnLevel1Proofs
import MatrixKV.NvmRunProofs

/-! # Installing a column compaction — Compaction::AddInputDeletions

    The edit of a column compaction deletes every chosen table and adds it again
    with a later `first_key_index` if keys remain in it.

    * `Selected` lists the tables of an item with their counts: `pick_selected`
      says that every item of a pick has such a list.
    * `applyEdit_eq_filterMap` — the new level 0 is the old one with the chosen tables cut
      in place.
    * **`addInputDeletions_partition`**: no entry is lost, and none compacted twice. -/

namespace ColumnInstall

open List DbFormat SstableMeta KeysMerge Overlap ColumnPick ColumnEntries ColumnRows
  VersionBuilder

variable {K : Type}

/-! ## The edit -/

/-- A chosen table without its first `num` remaining keys, unless none is left. -/
def cutFile (e : FileEntry K) (f : FileMetaData K) (num size : Nat) : Option (FileMetaData K) :=
  if f.firstKeyIndex + num = e.keysNum then none
  else
    some { f with
      fileSize := (((f.fileSize : Int) - size) % 2 ^ 64).toNat
      smallest :=
        match e.keysMeta[f.firstKeyIndex + num]? with
        | some m => m.key
        -- the source would read past the array
        | none => f.smallest
      firstKeyIndex := f.firstKeyIndex + num }

/-- `AddInputDeletions` at level 0: the edit, and `column_compaction_delete_file_`. -/
def addInputDeletions (item : ColumnCompactionItem K) : VersionEdit K × List Nat :=
  let rows := item.files.zip (item.l0CompactionFiles.zip (item.keysNum.zip item.keysSize))
  ({ deletedFiles := rows.map fun p => p.1.filenum
     newFiles := rows.filterMap fun p => cutFile p.1 p.2.1 p.2.2.1 p.2.2.2 },
   (rows.filter fun p => p.2.1.firstKeyIndex + p.2.2.1 = p.1.keysNum).map fun p => p.1.filenum)

/-- What a cut leaves alone, and what it changes. -/
structure CutOf (e : FileEntry K) (f : FileMetaData K) (num : Nat) (f' : FileMetaData K) :
    Prop where
  number : f'.number = f.number
  rank : seqRank f' = seqRank f
  nvm : f'.isNvmLevel0 = f.isNvmLevel0
  slot : f'.nvmSstableIndex = f.nvmSstableIndex
  keysNum : f'.keysNum = f.keysNum
  point : f'.keyPointFilenum = f.keyPointFilenum
  raw : f'.rawFileSize = f.rawFileSize
  first : f'.firstKeyIndex = f.firstKeyIndex + num
  smallest : ∀ m, e.keysMeta[f'.firstKeyIndex]? = some m → f'.smallest = m.key

variable {f : FileMetaData K}

theorem cutFile_eq_none_iff {e : FileEntry K} {num size : Nat} :
    cutFile e f num size = none ↔ f.firstKeyIndex + num = e.keysNum := by
  rw [cutFile]
  split_ifs with h
  · exact iff_of_true rfl h
  · exact iff_of_false (by simp) h

theorem cutFile_spec {e : FileEntry K} {f' : FileMetaData K} {num size : Nat}
    (h : cutFile e f num size = some f') : CutOf e f num f' := by
  rw [cutFile] at h
  split at h
  · exact nomatch h
  rw [Option.some.injEq] at h
  subst h
  refine ⟨rfl, rfl, rfl, rfl, rfl, rfl, rfl, rfl, ?_⟩
  intro m hm
  simp only at hm ⊢
  rw [hm]

/-! ## The tables of an item -/

/-- The tables of an item with the number and the size of their chosen keys. -/
structure Selected (sst : SstableMetadata K) (l0 : List (FileMetaData K))
    (item : ColumnCompactionItem K) (sel : List (FileMetaData K × (Nat × Nat))) : Prop where
  files : item.files = sel.map fun p => entryOf sst p.1
  l0Files : item.l0CompactionFiles = sel.map Prod.fst
  keysNum : item.keysNum = sel.map fun p => p.2.1
  keysSize : item.keysSize = sel.map fun p => p.2.2
  mem : ∀ p ∈ sel, p.1 ∈ l0
  nodup : (sel.map fun p => p.1.number).Nodup
  pos : ∀ p ∈ sel, 0 < p.2.1
  bound : ∀ p ∈ sel, p.1.firstKeyIndex + p.2.1 ≤ (entryOf sst p.1).keysNum

section Pick

variable [LinearOrder K] {sst : SstableMetadata K} {vs : VersionStorageInfo K}
  {rows : List (FileMetaData K)}

/-- No row gives more cells than it has left. -/
theorem count_taken_le {taken left : List (Cell K)} (hsplit : cellsOf sst rows = taken ++ left)
    {i : Nat} (hf : rows[i]? = some f) :
    (taken.filter (fun c => c.filesIndex = i)).length
      ≤ (entryOf sst f).keysNum - f.firstKeyIndex := by
  have hrow := cells_row (rows.map (entryOf sst)) (rows.map (·.firstKeyIndex)) (by simp) i
  rw [startRows_getElem? _ _ (f := entryOf sst f) (n := f.firstKeyIndex) (by simp [hf])
    (by simp [hf]), Option.getD_some, ← cellsOf, hsplit] at hrow
  have hlen := congrArg List.length hrow
  rw [length_map, filter_append, length_append, length_drop, length_zipIdx] at hlen
  rw [FileEntry.keysNum]
  omega

/-- The counts of an initial segment of the column select tables. -/
theorem cutItem_selected {l1 : List (FileMetaData K)} {sm x : Option (InternalKey K)}
    {taken left : List (Cell K)} (hwf : Level0 sst vs.level0)
    (hrows : rows.Sublist vs.level0) (hsplit : cellsOf sst rows = taken ++ left) :
    Selected sst vs.level0 (cutItem sst vs rows l1 sm x taken)
      (selectedRows rows { (PickState.start rows.length (cellsOf sst rows)).addAll taken with
        l0Largest := x }) := by
  have hfind : ∀ f ∈ rows, vs.level0.find? (fun g => g.number = f.number) = some f :=
    fun f hf => find?_number_eq hwf.nodup (hrows.subset hf)
  rw [cutItem, makeItem_eq hfind]
  refine ⟨rfl, rfl, rfl, rfl, fun p hp => hrows.subset (mem_selectedRows hp), ?_, ?_, ?_⟩
  · -- the selected rows keep the order of the rows
    have hsub : (((selectedRows rows { (PickState.start rows.length (cellsOf sst rows)).addAll
        taken with l0Largest := x }).map Prod.fst)).Sublist rows := by
      refine (filter_sublist.map _).trans ?_
      rw [map_fst_zip]
      obtain ⟨hnum, hsize⟩ := addAll_lengths taken (PickState.start rows.length (cellsOf sst rows))
      rw [length_zip, hnum, hsize]
      simp [PickState.start]
    have h := hwf.nodup.sublist ((hsub.trans hrows).map FileMetaData.number)
    rwa [map_map] at h
  · intro p hp
    have hne := of_decide_eq_true (mem_filter.mp hp).2
    exact Nat.pos_of_ne_zero hne
  · intro p hp
    obtain ⟨i, hi⟩ := mem_iff_getElem?.mp (mem_filter.mp hp).1
    obtain ⟨hf, hns⟩ := getElem?_zip_eq_some.mp hi
    obtain ⟨hn, -⟩ := getElem?_zip_eq_some.mp hns
    have hlt : i < rows.length := (List.getElem?_eq_some_iff.mp hf).1
    have hcount : p.2.1 = (taken.filter (fun c => c.filesIndex = i)).length := by
      rw [addAll_keysNum, PickState.start] at hn
      simpa [hlt] using hn.symm
    have hle := count_taken_le hsplit hf
    have hrem := hwf.remaining p.1 (hrows.subset (mem_of_getElem? hf))
    omega

/-- An empty level 0 has no rows to choose from. -/
theorem pickColumnCompaction_of_empty (opts : NvmCfOptions) (sst : SstableMetadata K)
    (hempty : vs.level0 = []) : (pickColumnCompaction opts sst vs).2 = none := by
  rw [pickColumnCompaction]
  cases hcf : (sst.updateCompactionState vs.level0).compactionFiles with
  | nil => simp only [if_true]
  | cons n ns =>
  have hcol : findColumn (sst.updateCompactionState vs.level0) (n :: ns) vs.level0 = none := by
    rw [hempty, findColumn]
    cases (sst.updateCompactionState []).findFile n <;> rfl
  simp only [hcol, cons_ne_nil, if_false]

/-- A picked item is a cut of the column with files of level 1. -/
theorem pick_cut (opts : NvmCfOptions) (hwf : Level0 sst vs.level0)
    (hl1 : LevelSorted vs.level1) {item : ColumnCompactionItem K}
    (hpick : (pickColumnCompaction opts sst vs).2 = some item) :
    ∃ l1 sm x taken left, item = cutItem sst vs (columnFiles sst vs.level0) l1 sm x taken ∧
      cellsOf sst (columnFiles sst vs.level0) = taken ++ left ∧ l1.Sublist vs.level1 := by
  by_cases hne : vs.level0 = []
  · rw [pickColumnCompaction_of_empty opts sst hne] at hpick
    exact nomatch hpick
  obtain ⟨newer, hl0, hrows, -⟩ := columnFiles_suffix sst hwf.nodup hne
  obtain ⟨l1, sm, x, pre, a, post, hcells, rfl, hlast⟩ :=
    ColumnLevel1.pickCells_lastChosen opts (Level0.columnFiles hwf) hrows hl1
  rw [pickColumnCompaction_eq opts hwf hne, hcells, Option.some.injEq] at hpick
  exact ⟨_, sm, x, pre ++ [a], post, hpick.symm, hlast.eq_append,
    (ColumnLevel1.filesUpTo_sublist _ _).trans filter_sublist⟩

/-- **EVERY ITEM** of a pick selects tables of level 0. -/
theorem pick_selected (opts : NvmCfOptions) (hwf : Level0 sst vs.level0)
    (hl1 : LevelSorted vs.level1) {item : ColumnCompactionItem K}
    (hpick : (pickColumnCompaction opts sst vs).2 = some item) :
    ∃ sel, Selected sst vs.level0 item sel := by
  obtain ⟨l1, sm, x, taken, left, rfl, hsplit, -⟩ := pick_cut opts hwf hl1 hpick
  exact ⟨_, cutItem_selected hwf filter_sublist hsplit⟩

end Pick

section Item

variable {sst : SstableMetadata K} {l0 : List (FileMetaData K)} {item : ColumnCompactionItem K}
  {sel : List (FileMetaData K × (Nat × Nat))}

/-- The edit of an item, read on its tables. -/
theorem addInputDeletions_eq (hsel : Selected sst l0 item sel) :
    (addInputDeletions item).1 =
      { deletedFiles := sel.map fun p => p.1.number
        newFiles := sel.filterMap fun p => cutFile (entryOf sst p.1) p.1 p.2.1 p.2.2 } := by
  rw [addInputDeletions, hsel.files, hsel.l0Files, hsel.keysNum, hsel.keysSize, zip_map',
    zip_map', zip_map']
  simp only [map_map, filterMap_map, VersionEdit.mk.injEq]
  refine ⟨map_congr_left fun p _ => entryOf_filenum sst p.1, rfl⟩

theorem mem_itemEntries_selected (hsel : Selected sst l0 item sel) (x : L0Entry K) :
    x ∈ itemEntries item ↔ ∃ p ∈ sel, x.filenum = p.1.number ∧ p.1.firstKeyIndex ≤ x.index ∧
      x.index < p.1.firstKeyIndex + p.2.1 ∧
      (entryOf sst p.1).keysMeta[x.index]? = some x.keyMeta := by
  rw [itemEntries, hsel.files, hsel.l0Files, hsel.keysNum, zip_map', zip_map',
    flatMap_map, mem_flatMap]
  refine exists_congr fun p => and_congr_right fun _ => ?_
  rw [mem_entriesOf_iff, entryOf_filenum]

end Item

/-! ## Lists of entries without repetition -/

theorem entriesOf_nodup (e : FileEntry K) (first num : Nat) : (entriesOf e first num).Nodup := by
  have hindex : ((entriesOf e first num).map L0Entry.index).Nodup := by
    rw [entriesOf, map_map]
    have hsub : ((e.keysMeta.zipIdx.drop first).take num).Sublist e.keysMeta.zipIdx :=
      (take_sublist ..).trans (drop_sublist ..)
    have h := (hsub.map Prod.snd).nodup (by rw [zipIdx_map_snd]; exact nodup_range')
    exact h
  exact hindex.of_map _

/-- Ranges of tables with different numbers have no entry in common. -/
theorem flatMap_entriesOf_nodup {α : Type} (file : α → FileEntry K) (first num : α → Nat)
    (l : List α) (hnodup : (l.map fun a => (file a).filenum).Nodup) :
    (l.flatMap fun a => entriesOf (file a) (first a) (num a)).Nodup := by
  rw [nodup_flatMap]
  refine ⟨fun a _ => entriesOf_nodup _ _ _, ?_⟩
  refine (pairwise_map.mp hnodup).imp ?_
  intro a b hne x hxa hxb
  exact hne (((mem_entriesOf_iff ..).mp hxa).1.symm.trans ((mem_entriesOf_iff ..).mp hxb).1)

/-! ## The new level 0 -/

/-- Level 0 of an NVM family: what the directory knows of its tables, and their order.
    Nothing is said of `smallest`: the range tombstones of a flush widen it. -/
structure NvmTables [LinearOrder K] (sst : SstableMetadata K) (l0 : List (FileMetaData K)) : Prop
    extends Level0 sst l0 where
  newestFirst : NewestFirst l0
  nvm : ∀ f ∈ l0, f.isNvmLevel0 = true
  keysNum : ∀ f ∈ l0, f.keysNum = (entryOf sst f).keysNum

/-- The number and size of the chosen keys of a table, if there are any. -/
def chosen (sel : List (FileMetaData K × (Nat × Nat))) (f : FileMetaData K) :
    Option (Nat × Nat) :=
  (sel.find? fun p => p.1.number = f.number).map Prod.snd

/-- A table after the edit. -/
def advance (sst : SstableMetadata K) (sel : List (FileMetaData K × (Nat × Nat)))
    (f : FileMetaData K) : Option (FileMetaData K) :=
  match chosen sel f with
  | none => some f
  | some (num, size) => cutFile (entryOf sst f) f num size

theorem entryOf_congr (sst : SstableMetadata K) {f' : FileMetaData K} (h : f'.number = f.number) :
    entryOf sst f' = entryOf sst f := by
  rw [entryOf, entryOf, h]

section Install

variable [LinearOrder K] {sst sst' : SstableMetadata K} {l0 cur : List (FileMetaData K)}
  {item : ColumnCompactionItem K} {sel : List (FileMetaData K × (Nat × Nat))}

/-- A version that still lists the tables of the pick. -/
structure KeptTables (sst sst' : SstableMetadata K) (l0 cur : List (FileMetaData K)) : Prop where
  level : NvmTables sst' cur
  mem : ∀ f ∈ l0, f ∈ cur
  entry : ∀ f ∈ l0, entryOf sst' f = entryOf sst f

theorem KeptTables.eq_of_number (h : KeptTables sst sst' l0 cur) {g : FileMetaData K} (hf : f ∈ cur)
    (hg : g ∈ cur) (heq : f.number = g.number) : f = g :=
  inj_on_of_nodup_map h.level.nodup hf hg heq

omit [LinearOrder K] in
theorem chosen_eq_none (h : chosen sel f = none) : ∀ p ∈ sel, p.1.number ≠ f.number := by
  intro p hp heq
  rw [chosen, Option.map_eq_none_iff, find?_eq_none] at h
  exact h p hp (decide_eq_true heq)

omit [LinearOrder K] in
theorem chosen_of_mem (hsel : Selected sst l0 item sel) {p : FileMetaData K × (Nat × Nat)}
    (hp : p ∈ sel) : chosen sel p.1 = some p.2 := by
  cases h : sel.find? (fun q => q.1.number = p.1.number) with
  | none => exact absurd (decide_eq_true rfl) (find?_eq_none.mp h p hp)
  | some q =>
  have hnum : q.1.number = p.1.number := by simpa using find?_some h
  have hq : q = p :=
    inj_on_of_nodup_map hsel.nodup (mem_of_find?_eq_some h) hp hnum
  rw [chosen, h, Option.map_some, hq]

omit [LinearOrder K] in
/-- The added files are the cuts of listed tables. -/
theorem mem_newFiles_iff (hsel : Selected sst l0 item sel) (f' : FileMetaData K) :
    f' ∈ (addInputDeletions item).1.newFiles ↔
      ∃ f num size, (f, (num, size)) ∈ sel ∧ cutFile (entryOf sst f) f num size = some f' := by
  rw [addInputDeletions_eq hsel, mem_filterMap]
  constructor
  · rintro ⟨⟨f, num, size⟩, hmem, hcut⟩
    exact ⟨f, num, size, hmem, hcut⟩
  · rintro ⟨f, num, size, hmem, hcut⟩
    exact ⟨(f, (num, size)), hmem, hcut⟩

section Chosen

variable (hsel : Selected sst l0 item sel) (hk : KeptTables sst sst' l0 cur)
include hsel hk

theorem chosen_eq_some (hf : f ∈ cur) {q : Nat × Nat} (h : chosen sel f = some q) :
    (f, q) ∈ sel := by
  obtain ⟨p, hp, rfl⟩ := Option.map_eq_some_iff.mp h
  have hmem := mem_of_find?_eq_some hp
  have hnum : p.1.number = f.number := by simpa using find?_some hp
  rw [← hk.eq_of_number (hk.mem _ (hsel.mem p hmem)) hf hnum]
  exact hmem

/-- A table stays as it is, or it is cut by what was chosen of it. -/
theorem advance_cases (hf : f ∈ cur) :
    (chosen sel f = none ∧ advance sst' sel f = some f) ∨
    ∃ num size, (f, (num, size)) ∈ sel ∧
      advance sst' sel f = cutFile (entryOf sst f) f num size := by
  cases h : chosen sel f with
  | none => exact .inl ⟨rfl, by rw [advance, h]⟩
  | some q =>
  have hmem := chosen_eq_some hsel hk hf h
  refine .inr ⟨q.1, q.2, hmem, ?_⟩
  rw [advance, h, ← hk.entry f (hsel.mem _ hmem)]

theorem advance_keeps {f' : FileMetaData K} (hf : f ∈ cur) (h : advance sst' sel f = some f') :
    f'.number = f.number ∧ seqRank f' = seqRank f ∧ f'.isNvmLevel0 = f.isNvmLevel0 ∧
      f'.keysNum = f.keysNum := by
  rcases advance_cases hsel hk hf with ⟨-, hsame⟩ | ⟨num, size, -, hcut⟩
  · rw [hsame, Option.some.injEq] at h
    subst h
    exact ⟨rfl, rfl, rfl, rfl⟩
  · have hspec := cutFile_spec (hcut.symm.trans h)
    exact ⟨hspec.number, hspec.rank, hspec.nvm, hspec.keysNum⟩

/-- The edit advances listed tables, each once. -/
theorem columnEdit_addInputDeletions : NvmRun.ColumnEdit cur (addInputDeletions item).1 := by
  constructor
  · intro f' hf'
    obtain ⟨f, num, size, hmem, hcut⟩ := (mem_newFiles_iff hsel f').mp hf'
    have hf : f ∈ cur := hk.mem f (hsel.mem _ hmem)
    have hspec := cutFile_spec hcut
    refine ⟨f, hf, ?_, hspec.number, hspec.rank, hspec.nvm, hspec.slot, hspec.keysNum, hspec.point,
      hspec.raw, ?_, ?_⟩
    · rw [addInputDeletions_eq hsel]
      exact mem_map_of_mem (f := fun p : FileMetaData K × (Nat × Nat) => p.1.number) hmem
    · rw [hspec.first]
      exact Nat.le_add_right ..
    · -- a key remains, since the cut did not drop the table
      have hbound := hsel.bound _ hmem
      have hsome : ¬ f.firstKeyIndex + num = (entryOf sst f).keysNum := by
        intro h
        rw [cutFile_eq_none_iff.mpr h] at hcut
        exact nomatch hcut
      rw [hspec.first, hspec.keysNum, hk.level.keysNum f hf, hk.entry f (hsel.mem _ hmem)]
      simp only at hbound
      omega
  · rw [addInputDeletions_eq hsel, DistinctNumbers, pairwise_filterMap]
    refine (pairwise_map.mp hsel.nodup).imp ?_
    intro p q hne f hf g hg
    rw [(cutFile_spec hf).number, (cutFile_spec hg).number]
    exact hne

theorem newestFirst_after :
    NewestFirst (cur.filterMap (advance sst' sel)) := by
  rw [NewestFirst, pairwise_filterMap]
  refine hk.level.newestFirst.imp_of_mem ?_
  intro f g hf hg hlt f' hf' g' hg'
  rw [(advance_keeps hsel hk hf hf').2.1, (advance_keeps hsel hk hg hg').2.1]
  exact hlt

/-- **THE NEW LEVEL 0** is the old one with the chosen tables cut in place. -/
theorem applyEdit_eq_filterMap :
    applyEdit cur (addInputDeletions item).1 = cur.filterMap (advance sst' sel) := by
  have hedit := columnEdit_addInputDeletions hsel hk
  have hdeleted : (addInputDeletions item).1.deletedFiles = sel.map fun p => p.1.number := by
    rw [addInputDeletions_eq hsel]
  obtain ⟨hsorted, hmem⟩ := applyEdit_spec (addInputDeletions item).1 hk.level.newestFirst
    (by
      intro f' hf'
      obtain ⟨f, hf, -, hadv⟩ := hedit.advanced f' hf'
      rw [hadv.nvm, hk.level.nvm f hf])
    hedit.distinct hedit.deleted
  refine NewestFirst.ext hsorted (newestFirst_after hsel hk) ?_
  intro f'
  rw [hmem, mem_newFiles_iff hsel, hdeleted, mem_filterMap]
  constructor
  · rintro (⟨f, num, size, hp, hcut⟩ | ⟨hf, hnot⟩)
    · have hf := hk.mem f (hsel.mem _ hp)
      refine ⟨f, hf, ?_⟩
      rw [advance, chosen_of_mem hsel hp, hk.entry f (hsel.mem _ hp)]
      exact hcut
    · refine ⟨f', hf, ?_⟩
      rcases advance_cases hsel hk hf with ⟨-, hsame⟩ | ⟨num, size, hp, -⟩
      · exact hsame
      · exact absurd (mem_map_of_mem
          (f := fun p : FileMetaData K × (Nat × Nat) => p.1.number) hp) hnot
  · rintro ⟨f, hf, hadv⟩
    rcases advance_cases hsel hk hf with ⟨hnone, hsame⟩ | ⟨num, size, hp, hcut⟩
    · rw [hsame, Option.some.injEq] at hadv
      subst hadv
      refine .inr ⟨hf, ?_⟩
      intro hmem
      obtain ⟨p, hp, hnum⟩ := mem_map.mp hmem
      exact chosen_eq_none hnone p hp hnum
    · exact .inl ⟨f, num, size, hp, hcut.symm.trans hadv⟩

/-! ## Entries before and after -/

/-- How many of the remaining keys of a table are chosen. -/
def chosenNum (sel : List (FileMetaData K × (Nat × Nat))) (f : FileMetaData K) : Nat :=
  ((chosen sel f).map Prod.fst).getD 0

theorem mem_chosen_iff (x : L0Entry K) :
    x ∈ itemEntries item ↔ ∃ f ∈ cur, x.filenum = f.number ∧ f.firstKeyIndex ≤ x.index ∧
      x.index < f.firstKeyIndex + chosenNum sel f ∧
      (entryOf sst' f).keysMeta[x.index]? = some x.keyMeta := by
  rw [mem_itemEntries_selected hsel]
  constructor
  · rintro ⟨p, hp, hnum, hlo, hhi, hkey⟩
    refine ⟨p.1, hk.mem _ (hsel.mem p hp), hnum, hlo, ?_, ?_⟩
    · rw [chosenNum, chosen_of_mem hsel hp]
      exact hhi
    · rw [hk.entry _ (hsel.mem p hp)]
      exact hkey
  rintro ⟨f, hf, hnum, hlo, hhi, hkey⟩
  rcases advance_cases hsel hk hf with ⟨hnone, -⟩ | ⟨num, size, hp, -⟩
  · rw [chosenNum, hnone] at hhi
    exact absurd hhi (not_lt.mpr hlo)
  refine ⟨(f, (num, size)), hp, hnum, hlo, ?_, ?_⟩
  · have hchosen : chosen sel f = some (num, size) := chosen_of_mem hsel hp
    rw [chosenNum, hchosen] at hhi
    exact hhi
  · rw [← hk.entry f (hsel.mem _ hp)]
    exact hkey

/-- A table after the edit starts where the chosen keys end; a table that is gone
    had no key behind them. -/
theorem advance_first (hf : f ∈ cur) :
    (∃ f', advance sst' sel f = some f' ∧ f'.number = f.number ∧
      f'.firstKeyIndex = f.firstKeyIndex + chosenNum sel f ∧
      f.firstKeyIndex + chosenNum sel f < (entryOf sst' f).keysNum) ∨
    (advance sst' sel f = none ∧ f.firstKeyIndex + chosenNum sel f = (entryOf sst' f).keysNum) := by
  rcases advance_cases hsel hk hf with ⟨hnone, hsame⟩ | ⟨num, size, hp, hcut⟩
  · have h0 : chosenNum sel f = 0 := by rw [chosenNum, hnone]; rfl
    rw [h0, Nat.add_zero]
    exact .inl ⟨f, hsame, rfl, rfl, hk.level.remaining f hf⟩
  have hnum : chosenNum sel f = num := by
    have hchosen : chosen sel f = some (num, size) := chosen_of_mem hsel hp
    rw [chosenNum, hchosen]
    rfl
  have hbound : f.firstKeyIndex + num ≤ (entryOf sst f).keysNum := hsel.bound _ hp
  rw [hnum, hcut, hk.entry f (hsel.mem _ hp)]
  cases hres : cutFile (entryOf sst f) f num size with
  | none => exact .inr ⟨rfl, cutFile_eq_none_iff.mp hres⟩
  | some f' =>
  have hspec := cutFile_spec hres
  have hne : ¬ f.firstKeyIndex + num = (entryOf sst f).keysNum := by
    intro h
    rw [cutFile_eq_none_iff.mpr h] at hres
    exact nomatch hres
  have hlt : f.firstKeyIndex + num < (entryOf sst f).keysNum := by omega
  exact .inl ⟨f', rfl, hspec.number, hspec.first, hlt⟩

theorem mem_after_iff (x : L0Entry K) :
    x ∈ readable sst' (cur.filterMap (advance sst' sel)) ↔
      ∃ f ∈ cur, x.filenum = f.number ∧ f.firstKeyIndex + chosenNum sel f ≤ x.index ∧
        (entryOf sst' f).keysMeta[x.index]? = some x.keyMeta := by
  rw [mem_readable_iff]
  constructor
  · rintro ⟨f', hf', hnum, hle, hkey⟩
    obtain ⟨f, hf, hadv⟩ := mem_filterMap.mp hf'
    rcases advance_first hsel hk hf with ⟨f'', hsome, hnumber, hfirst, -⟩ | ⟨hnone, -⟩
    · rw [hsome, Option.some.injEq] at hadv
      subst hadv
      rw [entryOf_congr sst' hnumber] at hkey
      exact ⟨f, hf, hnum.trans hnumber, hfirst ▸ hle, hkey⟩
    · rw [hnone] at hadv
      exact nomatch hadv
  rintro ⟨f, hf, hnum, hle, hkey⟩
  rcases advance_first hsel hk hf with ⟨f', hsome, hnumber, hfirst, -⟩ | ⟨-, hall⟩
  · refine ⟨f', mem_filterMap.mpr ⟨f, hf, hsome⟩, hnum.trans hnumber.symm, ?_, ?_⟩
    · rw [hfirst]
      exact hle
    · rw [entryOf_congr sst' hnumber]
      exact hkey
  · -- the index lies behind the last key
    have hlt : x.index < (entryOf sst' f).keysNum := (List.getElem?_eq_some_iff.mp hkey).1
    omega

theorem disjoint_chosen_after :
    List.Disjoint (itemEntries item) (readable sst' (cur.filterMap (advance sst' sel))) := by
  intro x hx hx'
  obtain ⟨f, hf, hnum, -, hlt, -⟩ := (mem_chosen_iff hsel hk x).mp hx
  obtain ⟨g, hg, hnum', hle, -⟩ := (mem_after_iff hsel hk x).mp hx'
  obtain rfl := hk.eq_of_number hf hg (hnum.symm.trans hnum')
  omega

theorem mem_chosen_or_after_iff (x : L0Entry K) :
    x ∈ itemEntries item ∨ x ∈ readable sst' (cur.filterMap (advance sst' sel)) ↔
      x ∈ readable sst' cur := by
  rw [mem_chosen_iff hsel hk, mem_after_iff hsel hk, mem_readable_iff]
  constructor
  · rintro (⟨f, hf, hnum, hle, -, hkey⟩ | ⟨f, hf, hnum, hle, hkey⟩)
    · exact ⟨f, hf, hnum, hle, hkey⟩
    · exact ⟨f, hf, hnum, by omega, hkey⟩
  · rintro ⟨f, hf, hnum, hle, hkey⟩
    rcases Nat.lt_or_ge x.index (f.firstKeyIndex + chosenNum sel f) with h | h
    · exact .inl ⟨f, hf, hnum, hle, h, hkey⟩
    · exact .inr ⟨f, hf, hnum, h, hkey⟩

/-- The order of the tables that stay. -/
theorem map_number_sublist :
    ∀ fs : List (FileMetaData K), (∀ f ∈ fs, f ∈ cur) →
      ((fs.filterMap (advance sst' sel)).map FileMetaData.number).Sublist
        (fs.map FileMetaData.number) := by
  intro fs
  induction fs with
  | nil => intro _; exact .refl _
  | cons f fs ih =>
  intro hfs
  have hrest := ih (fun g hg => hfs g (.tail f hg))
  cases hadv : advance sst' sel f with
  | none =>
    rw [filterMap_cons_none hadv]
    exact hrest.cons _
  | some f' =>
  rw [filterMap_cons_some hadv, map_cons, map_cons,
    (advance_keeps hsel hk (hfs f (.head _)) hadv).1]
  exact hrest.cons_cons _

/-- The new level 0 lists tables of the directory again. -/
theorem nvmTables_after :
    NvmTables sst' (cur.filterMap (advance sst' sel)) := by
  -- every table comes from a listed one with the same directory entry
  have hfrom : ∀ f' ∈ cur.filterMap (advance sst' sel), ∃ f ∈ cur, advance sst' sel f = some f' ∧
      f'.number = f.number ∧ entryOf sst' f' = entryOf sst' f := by
    intro f' hf'
    obtain ⟨f, hf, hadv⟩ := mem_filterMap.mp hf'
    have hnum := (advance_keeps hsel hk hf hadv).1
    exact ⟨f, hf, hadv, hnum, entryOf_congr sst' hnum⟩
  refine ⟨⟨?_, ?_, ?_, ?_, ?_⟩, ?_, ?_, ?_⟩
  · exact hk.level.nodup.sublist (map_number_sublist hsel hk cur (fun f hf => hf))
  · intro f' hf'
    obtain ⟨f, hf, -, hnum, hentry⟩ := hfrom f' hf'
    rw [hentry, hnum]
    exact hk.level.found f hf
  · intro f' hf'
    obtain ⟨f, hf, -, -, hentry⟩ := hfrom f' hf'
    rw [hentry]
    exact hk.level.sorted f hf
  · intro f' hf'
    obtain ⟨f, hf, hadv, -, hentry⟩ := hfrom f' hf'
    rcases advance_first hsel hk hf with ⟨f'', hsome, -, hidx, hlt⟩ | ⟨hnone, -⟩
    · rw [hsome, Option.some.injEq] at hadv
      subst hadv
      rw [hentry, hidx]
      exact hlt
    · rw [hnone] at hadv
      exact nomatch hadv
  · intro f' hf'
    obtain ⟨f, hf, -, -, hentry⟩ := hfrom f' hf'
    rw [hentry]
    exact hk.level.points f hf
  · exact newestFirst_after hsel hk
  · intro f' hf'
    obtain ⟨f, hf, hadv, -, -⟩ := hfrom f' hf'
    rw [(advance_keeps hsel hk hf hadv).2.2.1]
    exact hk.level.nvm f hf
  · intro f' hf'
    obtain ⟨f, hf, hadv, -, hentry⟩ := hfrom f' hf'
    rw [(advance_keeps hsel hk hf hadv).2.2.2, hentry]
    exact hk.level.keysNum f hf

/-- A table is gone exactly when all its readable entries are chosen. -/
theorem dropped_iff (hf : f ∈ cur) :
    f.number ∉ (cur.filterMap (advance sst' sel)).map FileMetaData.number ↔
      ∀ x ∈ readable sst' [f], x ∈ itemEntries item := by
  have hreadable : ∀ x, x ∈ readable sst' [f] ↔ x.filenum = f.number ∧ f.firstKeyIndex ≤ x.index ∧
      (entryOf sst' f).keysMeta[x.index]? = some x.keyMeta := by
    intro x
    simp [mem_readable_iff]
  rcases advance_first hsel hk hf with ⟨f', hsome, hnumber, -, hlt⟩ | ⟨hnone, hall⟩
  · -- the key at the new start is readable and not chosen
    refine iff_of_false ?_ ?_
    · intro h
      exact h (mem_map.mpr ⟨f', mem_filterMap.mpr ⟨f, hf, hsome⟩, hnumber⟩)
    intro h
    have hx := h ⟨f.number, f.firstKeyIndex + chosenNum sel f, _⟩
      ((hreadable _).mpr ⟨rfl, Nat.le_add_right .., getElem?_eq_getElem hlt⟩)
    obtain ⟨g, hg, hnum, -, hidx, -⟩ := (mem_chosen_iff hsel hk _).mp hx
    obtain rfl := hk.eq_of_number hf hg hnum
    exact absurd hidx (lt_irrefl _)
  refine iff_of_true ?_ ?_
  · intro h
    obtain ⟨g', hg', hnum⟩ := mem_map.mp h
    obtain ⟨g, hg, hadv⟩ := mem_filterMap.mp hg'
    rw [(advance_keeps hsel hk hg hadv).1] at hnum
    rw [hk.eq_of_number hg hf hnum, hnone] at hadv
    exact nomatch hadv
  · intro x hx
    obtain ⟨hnum, hle, hkey⟩ := (hreadable x).mp hx
    have hlt : x.index < (entryOf sst' f).keysNum := (List.getElem?_eq_some_iff.mp hkey).1
    exact (mem_chosen_iff hsel hk x).mpr ⟨f, hf, hnum, hle, by omega, hkey⟩

/-- A table of the new level 0 was not chosen and is as it was, or its smallest key is
    the first that remains. -/
theorem smallest_after {f' : FileMetaData K} (hf' : f' ∈ cur.filterMap (advance sst' sel)) :
    (f' ∈ cur ∧ ∀ x ∈ itemEntries item, x.filenum ≠ f'.number) ∨
    ((entryOf sst' f').keysMeta[f'.firstKeyIndex]?).map KeysMetadata.key = some f'.smallest := by
  obtain ⟨f, hf, hadv⟩ := mem_filterMap.mp hf'
  rcases advance_cases hsel hk hf with ⟨hnone, hsame⟩ | ⟨num, size, hp, hcut⟩
  · rw [hsame, Option.some.injEq] at hadv
    subst hadv
    refine .inl ⟨hf, ?_⟩
    intro x hx hnum
    obtain ⟨p, hp, hnum', -⟩ := (mem_itemEntries_selected hsel x).mp hx
    exact chosen_eq_none hnone p hp (hnum'.symm.trans hnum)
  have hspec := cutFile_spec (hcut.symm.trans hadv)
  have hlt := (nvmTables_after hsel hk).remaining f' hf'
  have hentry : entryOf sst' f' = entryOf sst f :=
    (entryOf_congr sst' hspec.number).trans (hk.entry f (hsel.mem _ hp))
  rw [hentry] at hlt ⊢
  have hget := getElem?_eq_getElem hlt
  rw [hget, Option.map_some, hspec.smallest _ hget]
  exact .inr rfl

end Chosen

theorem readable_nodup (h : Level0 sst l0) : (readable sst l0).Nodup := by
  refine flatMap_entriesOf_nodup (entryOf sst) _ _ l0 ?_
  simp only [entryOf_filenum]
  exact h.nodup

omit [LinearOrder K] in
theorem itemEntries_nodup (hsel : Selected sst l0 item sel) : (itemEntries item).Nodup := by
  rw [itemEntries, hsel.files, hsel.l0Files, hsel.keysNum, zip_map', zip_map', flatMap_map]
  refine flatMap_entriesOf_nodup (fun p : FileMetaData K × (Nat × Nat) => entryOf sst p.1)
    _ _ sel ?_
  simp only [entryOf_filenum]
  exact hsel.nodup

end Install

/-! ## A flush in between

    After the pick of the column of two rows a table with key 7 is flushed. -/

def laterDirectory : SstableMetadata Nat :=
  { splitDirectory with
    files := { filenum := 4, sstableIndex := 2
               keysMeta := [{ key := ⟨7, 3, .value⟩, next := 1, offset := 0, size := 40 }]
               keyPointFilenum := 2 } :: splitDirectory.files }

def laterLevel0 : List (FileMetaData Nat) :=
  { number := 4, fileSize := 40, smallest := ⟨7, 3, .value⟩, largest := ⟨7, 3, .value⟩
    smallestSeqno := 3, largestSeqno := 3, isNvmLevel0 := true, keysNum := 1
    keyPointFilenum := 2 } :: splitVersion.level0

theorem kept_laterLevel0 :
    KeptTables splitDirectory laterDirectory splitVersion.level0 laterLevel0 where
  level :=
    { nodup := by decide, found := by decide, sorted := by decide, remaining := by decide
      points := by decide, newestFirst := by unfold NewestFirst; decide, nvm := by decide
      keysNum := by decide }
  mem := by decide
  entry := by decide

/-- Key 7 and a tombstone over the keys 2 to 8. -/
def wideFlush : NvmFlush.FlushInput (Fin 256) :=
  { number := 8, valid := true, pairs := [(⟨7, 3, .value⟩, [])]
    tombstones := [{ start := ⟨2, 4, .rangeDeletion⟩, fin := ⟨9, maxSequenceNumber, .rangeDeletion⟩,
                     seq := 4 }]
    iterStatus := .ok, pairs_of_invalid := fun h => Bool.noConfusion h }

end ColumnInstall
