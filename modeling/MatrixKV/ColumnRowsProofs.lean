import MatrixKV.ColumnEntriesProofs

/-! # The column of a pick

    `PickColumnCompaction` works on the remaining cells of the rows of its column.

    * The overlapping level-1 files are looked up between the first and the last
      cell; these are the files that overlap any two cells.
    * `pickColumnCompaction_eq` — over a non-empty level 0 a pick is `pickCells` on
      the rows of `columnFiles`. -/

namespace ColumnRows

open List DbFormat SstableMeta KeysMerge Overlap ColumnPick ColumnEntries

variable {K : Type} [LinearOrder K]

/-- A level-1 file that overlaps the key range of the column. -/
def Touches (column : List (Cell K)) (f : FileMetaData K) : Prop :=
  ∃ lo ∈ column, ∃ hi ∈ column, Overlaps lo.keyMeta.key hi.keyMeta.key f

/-! ## The ends of the column -/

section Column

variable {sst : SstableMetadata K} {rows : List (FileMetaData K)}

section

variable (hwf : Level0 sst rows)
include hwf

theorem cellsOf_sorted : (cellsOf sst rows).Pairwise (fun a b => a.userKey ≤ b.userKey) := by
  refine cells_sorted (by simp) ?_
  intro e he
  obtain ⟨f, hf, rfl⟩ := mem_map.mp he
  exact hwf.sorted f hf

theorem point_of_mem_cellsOf {c : Cell K}
    (hc : c ∈ cellsOf sst rows) : c.keyMeta.key.type ≠ .rangeDeletion := by
  obtain ⟨f, hf, -, hkey⟩ := (mem_cellsOf_iff c).mp hc
  exact hwf.points f (mem_of_getElem? hf) _ (mem_of_getElem? hkey)

theorem sum_keysNum_pos (hne : rows ≠ []) :
    0 < ((rows.map (entryOf sst)).map FileEntry.keysNum).sum := by
  obtain ⟨f, fs, rfl⟩ := exists_cons_of_ne_nil hne
  have := hwf.remaining f (.head _)
  simp only [map_cons, sum_cons]
  omega

/-- The first cell: the smallest user key of the column. -/
theorem exists_first (hne : rows ≠ []) :
    ∃ lo cs, cellsOf sst rows = lo :: cs ∧
      (KeysMergeIterator.create (rows.map (entryOf sst))
        (rows.map (·.firstKeyIndex))).seekToFirst.getCurret = some lo := by
  obtain ⟨f, fs, rfl⟩ := exists_cons_of_ne_nil hne
  have hrem := hwf.remaining f (.head _)
  have hmem : (⟨0, f.firstKeyIndex, (entryOf sst f).keysMeta[f.firstKeyIndex]⟩ : Cell K)
      ∈ cellsOf sst (f :: fs) :=
    (mem_cellsOf_iff _).mpr ⟨f, rfl, le_rfl, getElem?_eq_getElem hrem⟩
  rw [seekToFirst_getCurret (sum_keysNum_pos hwf hne), ← cellsOf]
  cases hcs : cellsOf sst (f :: fs) with
  | nil => rw [hcs] at hmem; cases hmem
  | cons lo cs => exact ⟨lo, cs, rfl, rfl⟩

/-- The cell of `SeekToLast`: the largest user key of the column. -/
theorem exists_last (hne : rows ≠ []) :
    ∃ hi ∈ cellsOf sst rows,
      (KeysMergeIterator.create (rows.map (entryOf sst))
        (rows.map (·.firstKeyIndex))).seekToLast.getCurret = some hi ∧
      ∀ c ∈ cellsOf sst rows, c.userKey ≤ hi.userKey := by
  obtain ⟨hi, e, hcur, he, hidx, hkey, hmax⟩ :=
    seekToLast_getCurret (rows.map (entryOf sst)) (rows.map (·.firstKeyIndex))
      (by simpa using hne) (by
        intro e he
        obtain ⟨f, hf, rfl⟩ := mem_map.mp he
        have := hwf.remaining f hf
        omega)
  rw [getElem?_map] at he
  obtain ⟨f, hf, rfl⟩ := Option.map_eq_some_iff.mp he
  refine ⟨hi, ?_, hcur, ?_⟩
  · refine (mem_cellsOf_iff hi).mpr ⟨f, hf, ?_, hkey⟩
    have := hwf.remaining f (mem_of_getElem? hf)
    omega
  intro c hc
  obtain ⟨g, hg, -, hcg⟩ := (mem_cellsOf_iff c).mp hc
  have hgmem := mem_of_getElem? hg
  obtain ⟨m, hm, hle⟩ := userKey_le_getLast (sortedKeys_userKey_le (hwf.sorted g hgmem))
    (mem_of_getElem? hcg)
  exact hle.trans (hmax _ (mem_map_of_mem hgmem) m hm)

/-- Overlapping the two ends of the column is overlapping the column. -/
theorem overlaps_iff_touches {lo hi : Cell K} {cs : List (Cell K)}
    (hlo : cellsOf sst rows = lo :: cs) (hhi : hi ∈ cellsOf sst rows)
    (hmax : ∀ c ∈ cellsOf sst rows, c.userKey ≤ hi.userKey) (f : FileMetaData K) :
    Overlaps lo.keyMeta.key hi.keyMeta.key f ↔ Touches (cellsOf sst rows) f := by
  have hlomem : lo ∈ cellsOf sst rows := by
    rw [hlo]
    exact .head _
  constructor
  · intro h
    exact ⟨lo, hlomem, hi, hhi, h⟩
  rintro ⟨lo', hlo', hi', hhi', h1, h2⟩
  have hlole : lo.userKey ≤ lo'.userKey := by
    have hsorted := cellsOf_sorted hwf
    rw [hlo] at hsorted hlo'
    rcases mem_cons.mp hlo' with h | h
    · exact (congrArg Cell.userKey h.symm).le
    · exact (pairwise_cons.mp hsorted).1 lo' h
  rw [sstableKeyCompare_le_iff] at h1 h2
  constructor
  · rw [sstableKeyCompare_le_iff]
    exact (boundRank_le_of_point (point_of_mem_cellsOf hwf hlo') hlole).trans h1
  · rw [sstableKeyCompare_le_iff]
    exact h2.trans (boundRank_le_of_point (point_of_mem_cellsOf hwf hhi) (hmax hi' hhi'))

end

end Column

/-! ## A pick -/

variable {l0 : List (FileMetaData K)}

section Pick

variable {sst : SstableMetadata K} {vs : VersionStorageInfo K} {rows : List (FileMetaData K)}

/-- The items `pickCells` can build: the counts of an initial segment. -/
def cutItem (sst : SstableMetadata K) (vs : VersionStorageInfo K)
    (rows l1 : List (FileMetaData K)) (sm x : Option (InternalKey K))
    (taken : List (Cell K)) : ColumnCompactionItem K :=
  makeItem (rows.map (entryOf sst)) vs.level0 l1 sm
    { (PickState.start rows.length (cellsOf sst rows)).addAll taken with l0Largest := x }

omit [LinearOrder K] in
/-- A listed table is found again by its number. -/
theorem find?_number_eq (hnodup : (l0.map FileMetaData.number).Nodup) {f : FileMetaData K}
    (hf : f ∈ l0) : l0.find? (fun g => g.number = f.number) = some f := by
  induction l0 with
  | nil => exact nomatch hf
  | cons g gs ih =>
  rw [map_cons, nodup_cons] at hnodup
  rcases mem_cons.mp hf with rfl | hf
  · simp
  have hne : g.number ≠ f.number := fun h =>
    hnodup.1 (h ▸ mem_map_of_mem hf)
  rw [find?_cons_of_neg (by simpa using hne)]
  exact ih hnodup.2 hf

omit [LinearOrder K] in
@[simp] theorem entryOf_updateCompactionState (l0 : List (FileMetaData K)) :
    entryOf (sst.updateCompactionState l0) = entryOf sst := by
  funext f
  simp [entryOf, SstableMetadata.findFile]

/-- A pick works on the rows of its column. -/
theorem pickColumnCompaction_eq (opts : NvmCfOptions) (hwf : Level0 sst vs.level0)
    (hne : vs.level0 ≠ []) :
    (pickColumnCompaction opts sst vs).2
      = pickCells opts vs ((columnFiles sst vs.level0).map (entryOf sst))
          ((columnFiles sst vs.level0).map (·.firstKeyIndex)) := by
  obtain ⟨newer, hl0, hrows, hcf⟩ := columnFiles_suffix sst hwf.nodup hne
  have hcol : findColumn (sst.updateCompactionState vs.level0)
      ((columnFiles sst vs.level0).map FileMetaData.number) vs.level0
      = some ((columnFiles sst vs.level0).map (fun f => (entryOf sst f, f.firstKeyIndex))) := by
    have h := findColumn_eq (sst.updateCompactionState vs.level0) (columnFiles sst vs.level0) newer
      (by rw [← hl0]; exact hwf.nodup) (by
        intro f hf
        have hmem : f ∈ vs.level0 := (mem_filter.mp hf).1
        simpa [SstableMetadata.findFile] using hwf.found f hmem)
    rw [← hl0] at h
    simpa using h
  simp only [pickColumnCompaction, hcf, hcol]
  rw [if_neg (by simpa using hrows)]
  simp only [map_map]
  rfl

omit [LinearOrder K] in
theorem columnFiles_subset {f : FileMetaData K} (hf : f ∈ columnFiles sst l0) :
    f ∈ l0 := (mem_filter.mp hf).1

theorem Level0.columnFiles (h : Level0 sst l0) : Level0 sst (columnFiles sst l0) where
  nodup := h.nodup.sublist (filter_sublist.map _)
  found := fun f hf => h.found f (columnFiles_subset hf)
  sorted := fun f hf => h.sorted f (columnFiles_subset hf)
  remaining := fun f hf => h.remaining f (columnFiles_subset hf)
  points := fun f hf => h.points f (columnFiles_subset hf)

end Pick

/-! ## An example

    Two rows, the newer one with version 2 of key 5, the older one with version 1
    of key 5 and with key 25, and one level-1 file over the keys 20 to 30.  The
    first cell reaches the size of 30 bytes in the gap before the file. -/

def splitDirectory : SstableMetadata Nat :=
  { files :=
      [{ filenum := 2, sstableIndex := 1
         keysMeta := [{ key := ⟨5, 2, .value⟩, next := 0, offset := 0, size := 40 }] },
       { filenum := 1, sstableIndex := 0
         keysMeta := [{ key := ⟨5, 1, .value⟩, offset := 0, size := 40 },
                      { key := ⟨25, 1, .value⟩, offset := 40, size := 40 }] }] }

def splitVersion : VersionStorageInfo Nat :=
  { level0 :=
      [{ number := 2, fileSize := 40, smallest := ⟨5, 2, .value⟩, largest := ⟨5, 2, .value⟩
         smallestSeqno := 2, largestSeqno := 2, isNvmLevel0 := true, keysNum := 1 },
       { number := 1, fileSize := 80, smallest := ⟨5, 1, .value⟩, largest := ⟨25, 1, .value⟩
         smallestSeqno := 1, largestSeqno := 1, isNvmLevel0 := true, keysNum := 2 }]
    level1 :=
      [{ number := 3, fileSize := 100, smallest := ⟨20, 0, .value⟩, largest := ⟨30, 0, .value⟩
         smallestSeqno := 0, largestSeqno := 0 }] }

/-- One file of 6 MB and 30 bytes: thresholds of 30 bytes. -/
def splitOptions : NvmCfOptions :=
  { columnCompactionNoL1SelectL0 := 1, columnCompactionHaveL1SelectL0 := 1
    targetFileSizeBase := 6 * 1024 * 1024 + 30 }

theorem splitVersion_level0 : Level0 splitDirectory splitVersion.level0 where
  nodup := by decide
  found := by decide
  sorted := by decide
  remaining := by decide
  points := by decide

theorem splitVersion_level1 : LevelSorted splitVersion.level1 where
  bounds := by decide
  disjoint := by decide

end ColumnRows
