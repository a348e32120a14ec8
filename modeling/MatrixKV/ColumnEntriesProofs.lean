import MatrixKV.ColumnPickProofs

/-! # Entries of level 0 and of a column

    Above the cells of one pick there are the entries a reader sees: a table, an
    index in it, and the key metadata found there.

    * `readable` lists the entries of a version's level 0, `entries` those of a
      `ColumnCompactionItem`, over the index ranges the compaction's input
      iterators use.
    * `Level0` is the invariant of a version's level 0 against the directory.
    * `mem_readable_iff_cell` — under that invariant the readable entries are the cells
      of the column, and `mem_itemEntries_iff_taken` — those of an item are the cells
      the pick has taken. -/

namespace ColumnEntries

open List DbFormat SstableMeta KeysMerge ColumnPick

variable {K : Type}

/-- One entry of an NVM table. -/
structure L0Entry (K : Type) where
  filenum : Nat
  index : Nat
  keyMeta : KeysMetadata K
  deriving DecidableEq, Repr

def L0Entry.userKey (x : L0Entry K) : K := x.keyMeta.userKey

/-- The entries of a table at the indices `[first, first + num)`. -/
def entriesOf (e : FileEntry K) (first num : Nat) : List (L0Entry K) :=
  ((e.keysMeta.zipIdx.drop first).take num).map (fun p => ⟨e.filenum, p.2, p.1⟩)

theorem mem_entriesOf_iff (e : FileEntry K) (first num : Nat) (x : L0Entry K) :
    x ∈ entriesOf e first num ↔ x.filenum = e.filenum ∧ first ≤ x.index ∧
      x.index < first + num ∧ e.keysMeta[x.index]? = some x.keyMeta := by
  rw [entriesOf, mem_map]
  constructor
  · rintro ⟨⟨m, j⟩, hmem, rfl⟩
    exact ⟨rfl, (mem_zipIdx_drop_take_iff _ _ _ _ _).mp hmem⟩
  · rintro ⟨hnum, hrest⟩
    refine ⟨(x.keyMeta, x.index), (mem_zipIdx_drop_take_iff _ _ _ _ _).mpr hrest, ?_⟩
    cases x
    simp_all

/-- The directory entry of a listed table. -/
def entryOf (sst : SstableMetadata K) (f : FileMetaData K) : FileEntry K :=
  (sst.findFile f.number).getD { filenum := f.number, sstableIndex := 0 }

/-- What a reader sees of the tables `l0`: every index from `first_key_index` on. -/
def readable (sst : SstableMetadata K) (l0 : List (FileMetaData K)) : List (L0Entry K) :=
  l0.flatMap (fun f => entriesOf (entryOf sst f) f.firstKeyIndex (entryOf sst f).keysNum)

/-- The entries of a chosen column: for each table the range the level-0 children
    of `MakeColumnCompactionInputIterator` iterate. -/
def itemEntries (item : ColumnCompactionItem K) : List (L0Entry K) :=
  (item.files.zip (item.l0CompactionFiles.zip item.keysNum)).flatMap
    (fun p => entriesOf p.1 p.2.1.firstKeyIndex p.2.2)

theorem entryOf_filenum (sst : SstableMetadata K) (f : FileMetaData K) :
    (entryOf sst f).filenum = f.number := by
  rw [entryOf]
  cases h : sst.findFile f.number with
  | none => rfl
  | some e =>
    have := find?_some h
    simpa using this

theorem mem_readable_iff (sst : SstableMetadata K) (l0 : List (FileMetaData K))
    (x : L0Entry K) :
    x ∈ readable sst l0 ↔ ∃ f ∈ l0, x.filenum = f.number ∧ f.firstKeyIndex ≤ x.index ∧
      (entryOf sst f).keysMeta[x.index]? = some x.keyMeta := by
  rw [readable, mem_flatMap]
  constructor
  · rintro ⟨f, hf, hx⟩
    obtain ⟨h1, h2, -, h4⟩ := (mem_entriesOf_iff _ _ _ _).mp hx
    exact ⟨f, hf, h1.trans (entryOf_filenum sst f), h2, h4⟩
  rintro ⟨f, hf, h1, h2, h4⟩
  refine ⟨f, hf, (mem_entriesOf_iff _ _ _ _).mpr ⟨?_, h2, ?_, h4⟩⟩
  · exact h1.trans (entryOf_filenum sst f).symm
  · obtain ⟨hlt, -⟩ := List.getElem?_eq_some_iff.mp h4
    exact hlt.trans_le (Nat.le_add_left _ _)

/-! ## The invariant of level 0 -/

variable [LinearOrder K]

/-- A version's level 0 against the table directory: distinct tables, each known
    to the directory, sorted, with a key left to read, and holding point entries
    only (range tombstones are not stored in NVM tables). -/
structure Level0 (sst : SstableMetadata K) (l0 : List (FileMetaData K)) : Prop where
  nodup : (l0.map FileMetaData.number).Nodup
  found : ∀ f ∈ l0, sst.findFile f.number = some (entryOf sst f)
  sorted : ∀ f ∈ l0, SortedKeys ((entryOf sst f).keysMeta.map KeysMetadata.key)
  remaining : ∀ f ∈ l0, f.firstKeyIndex < (entryOf sst f).keysNum
  points : ∀ f ∈ l0, ∀ m ∈ (entryOf sst f).keysMeta, m.key.type ≠ .rangeDeletion

/-- The tables a column compaction works on. -/
def columnFiles (sst : SstableMetadata K) (l0 : List (FileMetaData K)) :
    List (FileMetaData K) :=
  l0.filter (fun f => f.number ∈ (sst.updateCompactionState l0).compactionFiles)

omit [LinearOrder K] in
/-- Along level 0 the accompanying walk finds every row. -/
theorem findColumn_eq (sst : SstableMetadata K) :
    ∀ (rows newer : List (FileMetaData K)),
      ((newer ++ rows).map FileMetaData.number).Nodup →
      (∀ f ∈ rows, sst.findFile f.number = some (entryOf sst f)) →
      findColumn sst (rows.map FileMetaData.number) (newer ++ rows)
        = some (rows.map (fun f => (entryOf sst f, f.firstKeyIndex))) := by
  intro rows
  induction rows with
  | nil => intro newer _ _; rfl
  | cons f fs ih =>
  intro newer hnodup hfound
  have hdrop : (newer ++ f :: fs).dropWhile (fun g => g.number ≠ (entryOf sst f).filenum)
      = f :: fs := by
    rw [entryOf_filenum, dropWhile_append_of_pos]
    · exact dropWhile_cons_of_neg (by simp)
    · intro g hg
      rw [map_append, nodup_append] at hnodup
      have hne := hnodup.2.2 g.number (mem_map_of_mem hg) f.number (by simp)
      simpa using hne
  have htail : (([] ++ fs).map FileMetaData.number).Nodup := by
    rw [map_append, nodup_append] at hnodup
    exact (nodup_cons.mp hnodup.2.1).2
  have hrest := ih [] htail (fun g hg => hfound g (.tail f hg))
  rw [nil_append] at hrest
  rw [map_cons, findColumn, hfound f mem_cons_self]
  simp only [hdrop, hrest, Option.map_some, map_cons]

omit [LinearOrder K] in
/-- The rows of a column are the last tables of level 0. -/
theorem columnFiles_suffix (sst : SstableMetadata K) {l0 : List (FileMetaData K)}
    (hnodup : (l0.map FileMetaData.number).Nodup) (hne : l0 ≠ []) :
    ∃ newer, l0 = newer ++ columnFiles sst l0 ∧ columnFiles sst l0 ≠ [] ∧
      (sst.updateCompactionState l0).compactionFiles
        = (columnFiles sst l0).map FileMetaData.number := by
  obtain ⟨newer, rows, hl0, hrows, hcf⟩ := updateCompactionState_suffix sst hne
  have heq : columnFiles sst l0 = rows := by
    rw [columnFiles, hcf]
    conv_lhs => rw [hl0]
    rw [filter_append, filter_eq_nil_iff.mpr, nil_append, filter_eq_self.mpr]
    · intro f hf
      exact decide_eq_true (mem_map_of_mem hf)
    · intro f hf hmem
      rw [hl0, map_append, nodup_append] at hnodup
      exact hnodup.2.2 _ (mem_map_of_mem hf) _ (of_decide_eq_true hmem) rfl
  exact ⟨newer, by rw [heq]; exact hl0, by rw [heq]; exact hrows, by rw [heq]; exact hcf⟩

/-! ## What an item lists -/

/-- The rows with at least one chosen cell, with their counts. -/
def selectedRows (rows : List (FileMetaData K)) (st : PickState K) :
    List (FileMetaData K × (Nat × Nat)) :=
  (rows.zip (st.keysNum.zip st.keysSize)).filter (fun p => p.2.1 ≠ 0)

section Item

variable {sst : SstableMetadata K} {rows l0 l1 : List (FileMetaData K)}
  {sm : Option (InternalKey K)} {st : PickState K}

section

omit [LinearOrder K]

theorem makeItem_selected :
    ((rows.map (entryOf sst)).zip (st.keysNum.zip st.keysSize)).filter (fun p => p.2.1 ≠ 0)
      = (selectedRows rows st).map (fun p => (entryOf sst p.1, p.2)) := by
  rw [zip_map_left, filter_map]
  rfl

theorem mem_selectedRows {p : FileMetaData K × (Nat × Nat)} (h : p ∈ selectedRows rows st) :
    p.1 ∈ rows :=
  (of_mem_zip (mem_filter.mp h).1).1

/-- The item in terms of the selected rows; the lookup by number finds each row again. -/
theorem makeItem_eq (hfind : ∀ f ∈ rows, l0.find? (fun g => g.number = f.number) = some f) :
    makeItem (rows.map (entryOf sst)) l0 l1 sm st =
      { files := (selectedRows rows st).map (fun p => entryOf sst p.1)
        keysNum := (selectedRows rows st).map (fun p => p.2.1)
        keysSize := (selectedRows rows st).map (fun p => p.2.2)
        l0CompactionFiles := (selectedRows rows st).map Prod.fst
        l1CompactionFiles := l1
        l0Smallest := sm
        l0Largest := st.l0Largest
        l0SelectSize := st.allComptionSize } := by
  simp only [makeItem, makeItem_selected, map_map, filterMap_map]
  congr 1
  rw [← filterMap_eq_map]
  refine filterMap_congr fun p hp => ?_
  simp only [Function.comp_apply, entryOf_filenum]
  exact hfind p.1 (mem_selectedRows hp)

theorem mem_itemEntries_iff (hsize : st.keysSize.length = rows.length)
    (hfind : ∀ f ∈ rows, l0.find? (fun g => g.number = f.number) = some f) (x : L0Entry K) :
    x ∈ itemEntries (makeItem (rows.map (entryOf sst)) l0 l1 sm st) ↔
      ∃ (i : Nat) (f : FileMetaData K) (n : Nat), rows[i]? = some f ∧
        st.keysNum[i]? = some n ∧ x ∈ entriesOf (entryOf sst f) f.firstKeyIndex n := by
  rw [itemEntries, makeItem_eq hfind, zip_map', zip_map', mem_flatMap]
  constructor
  · rintro ⟨q, hq, hx⟩
    obtain ⟨p, hp, rfl⟩ := mem_map.mp hq
    obtain ⟨i, hi⟩ := mem_iff_getElem?.mp (mem_filter.mp hp).1
    obtain ⟨hf, hns⟩ := getElem?_zip_eq_some.mp hi
    obtain ⟨hn, -⟩ := getElem?_zip_eq_some.mp hns
    exact ⟨i, _, _, hf, hn, hx⟩
  rintro ⟨i, f, n, hf, hn, hx⟩
  have hn0 : n ≠ 0 := by
    rintro rfl
    simp [entriesOf] at hx
  have hi : i < st.keysSize.length := by
    obtain ⟨hlt, -⟩ := List.getElem?_eq_some_iff.mp hf
    omega
  have hsz : st.keysSize[i]? = some st.keysSize[i] := getElem?_eq_getElem hi
  have hmem : (f, (n, st.keysSize[i])) ∈ selectedRows rows st := by
    refine mem_filter.mpr ⟨?_, by simpa using hn0⟩
    refine mem_iff_getElem?.mpr ⟨i, ?_⟩
    exact getElem?_zip_eq_some.mpr ⟨hf, getElem?_zip_eq_some.mpr ⟨hn, hsz⟩⟩
  exact ⟨_, mem_map_of_mem hmem, hx⟩

end

end Item

/-! ## Cells and entries -/

/-- The entry behind a cell of the column over `rows`. -/
def toEntry (rows : List (FileMetaData K)) (c : Cell K) : L0Entry K :=
  ⟨((rows[c.filesIndex]?).map FileMetaData.number).getD 0, c.keysIndex, c.keyMeta⟩

/-- The column over `rows` in key order. -/
def cellsOf (sst : SstableMetadata K) (rows : List (FileMetaData K)) : List (Cell K) :=
  cells (rows.map (entryOf sst)) (rows.map (·.firstKeyIndex))

section Cells

variable {sst : SstableMetadata K} {rows : List (FileMetaData K)}

theorem mem_cellsOf_iff (c : Cell K) :
    c ∈ cellsOf sst rows ↔ ∃ f, rows[c.filesIndex]? = some f ∧
      f.firstKeyIndex ≤ c.keysIndex ∧ (entryOf sst f).keysMeta[c.keysIndex]? = some c.keyMeta := by
  rw [cellsOf, mem_cells_iff (by simp)]
  constructor
  · rintro ⟨e, n, he, hn, hle, hkey⟩
    rw [getElem?_map] at he
    obtain ⟨f, hf, rfl⟩ := Option.map_eq_some_iff.mp he
    rw [getElem?_map, hf, Option.map_some, Option.some.injEq] at hn
    exact ⟨f, hf, hn ▸ hle, hkey⟩
  · rintro ⟨f, hf, hle, hkey⟩
    exact ⟨entryOf sst f, f.firstKeyIndex, by simp [hf], by simp [hf], hle, hkey⟩

/-- The readable entries of the rows are the entries of the cells. -/
theorem mem_readable_iff_cell (x : L0Entry K) :
    x ∈ readable sst rows ↔ ∃ c ∈ cellsOf sst rows, toEntry rows c = x := by
  rw [mem_readable_iff]
  constructor
  · rintro ⟨f, hf, hnum, hle, hkey⟩
    obtain ⟨i, hi⟩ := mem_iff_getElem?.mp hf
    refine ⟨⟨i, x.index, x.keyMeta⟩, (mem_cellsOf_iff _).mpr ⟨f, hi, hle, hkey⟩, ?_⟩
    cases x
    simp only [toEntry, hi, Option.map_some, Option.getD_some] at hnum ⊢
    rw [hnum]
  · rintro ⟨c, hc, rfl⟩
    obtain ⟨f, hf, hle, hkey⟩ := (mem_cellsOf_iff c).mp hc
    exact ⟨f, mem_of_getElem? hf, by simp [toEntry, hf], hle, hkey⟩

/-- Different cells are different entries. -/
theorem toEntry_inj (hnodup : (rows.map FileMetaData.number).Nodup) {c d : Cell K}
    (hc : c ∈ cellsOf sst rows) (hd : d ∈ cellsOf sst rows)
    (h : toEntry rows c = toEntry rows d) : c = d := by
  obtain ⟨f, hf, -, -⟩ := (mem_cellsOf_iff c).mp hc
  obtain ⟨g, hg, -, -⟩ := (mem_cellsOf_iff d).mp hd
  simp only [toEntry, hf, hg, Option.map_some, Option.getD_some, L0Entry.mk.injEq] at h
  obtain ⟨hnum, hidx, hmeta⟩ := h
  have hfi : (rows.map FileMetaData.number)[c.filesIndex]? = some f.number := by simp [hf]
  have hgi : (rows.map FileMetaData.number)[d.filesIndex]? = some f.number := by
    simp [hg, hnum]
  have hci := (List.getElem?_eq_some_iff.mp hfi).1
  have hij : c.filesIndex = d.filesIndex :=
    (getElem?_inj hci hnodup).mp (hfi.trans hgi.symm)
  cases c
  cases d
  simp_all

/-- A cell is visited only once. -/
theorem not_mem_taken_of_mem_left {taken left : List (Cell K)}
    (hsplit : cellsOf sst rows = taken ++ left) {c : Cell K} (hc : c ∈ left) : c ∉ taken := by
  intro hmem
  have hrow := cells_row (rows.map (entryOf sst)) (rows.map (·.firstKeyIndex))
    (by simp) c.filesIndex
  rw [← cellsOf, hsplit, filter_append, map_append] at hrow
  have hcell : c ∈ cellsOf sst rows := by
    rw [hsplit]
    exact mem_append_left _ hmem
  obtain ⟨f, hf, -, -⟩ := (mem_cellsOf_iff c).mp hcell
  rw [startRows_getElem? _ _ (f := entryOf sst f) (n := f.firstKeyIndex) (by simp [hf])
    (by simp [hf]), Option.getD_some] at hrow
  -- the indices of one row are all different
  have hnodup : ((entryOf sst f).keysMeta.zipIdx.drop f.firstKeyIndex).Nodup := by
    refine List.Nodup.sublist (drop_sublist _ _) ?_
    refine List.Nodup.of_map Prod.snd ?_
    rw [zipIdx_map_snd]
    exact nodup_range'
  rw [← hrow, nodup_append] at hnodup
  exact hnodup.2.2 _ ((mem_iff_mem_row c).mp hmem) _ ((mem_iff_mem_row c).mp hc) rfl

/-- **THE CUT**: an item built from the counts of an initial segment of the
    column lists exactly the entries of that segment. -/
theorem mem_itemEntries_iff_taken {l0 l1 : List (FileMetaData K)}
    {sm x : Option (InternalKey K)} {taken left : List (Cell K)}
    (hsplit : cellsOf sst rows = taken ++ left)
    (hfind : ∀ f ∈ rows, l0.find? (fun g => g.number = f.number) = some f) (y : L0Entry K) :
    y ∈ itemEntries (makeItem (rows.map (entryOf sst)) l0 l1 sm
        { (PickState.start rows.length (cellsOf sst rows)).addAll taken with l0Largest := x }) ↔
      ∃ c ∈ taken, toEntry rows c = y := by
  have hcount : ∀ i f, rows[i]? = some f →
      ((PickState.start rows.length (cellsOf sst rows)).addAll taken).keysNum[i]?
        = some (taken.filter (fun c => c.filesIndex = i)).length := by
    intro i f hf
    have hi : i < rows.length := (List.getElem?_eq_some_iff.mp hf).1
    rw [addAll_keysNum, PickState.start]
    simp [hi]
  rw [mem_itemEntries_iff (by rw [(addAll_lengths taken _).2]; simp [PickState.start]) hfind]
  constructor
  · rintro ⟨i, f, n, hf, hn, hy⟩
    rw [hcount i f hf, Option.some.injEq] at hn
    obtain ⟨hnum, hle, hlt, hkey⟩ := (mem_entriesOf_iff _ _ _ _).mp hy
    have hc : (⟨i, y.index, y.keyMeta⟩ : Cell K) ∈ cellsOf sst rows :=
      (mem_cellsOf_iff _).mpr ⟨f, hf, hle, hkey⟩
    refine ⟨⟨i, y.index, y.keyMeta⟩, ?_, ?_⟩
    · refine (mem_take_cells_iff (by simp) hsplit hc (n := f.firstKeyIndex) (by simp [hf])).mpr ?_
      rw [hn]
      exact hlt
    · cases y
      rw [entryOf_filenum] at hnum
      simp only [toEntry, hf, Option.map_some, Option.getD_some] at hnum ⊢
      rw [hnum]
  · rintro ⟨c, hc, rfl⟩
    have hmem : c ∈ cellsOf sst rows := by
      rw [hsplit]
      exact mem_append_left _ hc
    obtain ⟨f, hf, hle, hkey⟩ := (mem_cellsOf_iff c).mp hmem
    refine ⟨c.filesIndex, f, _, hf, hcount _ f hf, (mem_entriesOf_iff _ _ _ _).mpr
      ⟨?_, hle, ?_, hkey⟩⟩
    · rw [entryOf_filenum]
      simp [toEntry, hf]
    · exact (mem_take_cells_iff (by simp) hsplit hmem (n := f.firstKeyIndex) (by simp [hf])).mp hc

end Cells

end ColumnEntries
