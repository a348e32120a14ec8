import MatrixKV.ColumnLevel1Proofs

/-! # The output level of a column — SetupColumnCompactionInputs

    A column compaction writes to the base level of the version, and merges with the
    files that its pick found.  The pick looks for them in level 1.  Both are the
    same level as long as the sizes of the levels are fixed; with dynamic level bytes
    the base level is the first level that holds data, or one computed from sizes.

    * `IncludesOverlaps` — every file of the output level in the chosen key range is
      an input.
    * **`setup_includes_iff`**: when that holds. -/

namespace ColumnOutput

open DbFormat SstableMeta KeysMerge Overlap ColumnPick ColumnEntries ColumnRows ColumnLevel1

variable {K : Type} [LinearOrder K]

/-! ## The base level -/

/-- The levels of a version. -/
structure LeveledVersion (K : Type) where
  level0 : List (FileMetaData K)
  /-- the files of a level from 1 on -/
  levels : Nat → List (FileMetaData K)
  numLevels : Nat

/-- `divide` is the division by `max_bytes_for_level_multiplier`, a `double`, cut down
    to a `uint64_t`. -/
structure LevelOptions where
  levelCompactionDynamicLevelBytes : Bool
  maxBytesForLevelBase : Nat
  divide : Nat → Nat

def levelBytes (files : List (FileMetaData K)) : Nat := (files.map FileMetaData.fileSize).sum

/-- The levels from 1 to the last. -/
def upperLevels (v : LeveledVersion K) : List Nat := List.range' 1 (v.numLevels - 1)

def firstNonEmptyLevel (v : LeveledVersion K) : Option Nat :=
  (upperLevels v).find? (fun i => 0 < levelBytes (v.levels i))

def maxLevelSize (v : LeveledVersion K) : Nat :=
  ((upperLevels v).map (fun i => levelBytes (v.levels i))).foldl max 0

/-- The loop that moves the base level down while its target is too large. -/
def lowerBaseLevel (divide : Nat → Nat) (baseBytesMax : Nat) : Nat → Nat → Nat
  | level + 2, curLevelSize =>
    if curLevelSize > baseBytesMax then
      lowerBaseLevel divide baseBytesMax (level + 1) (divide curLevelSize)
    else level + 2
  | level, _ => level

/-- `base_level_` as `CalculateBaseBytes` sets it under leveled compaction. -/
def calculateBaseLevel (opts : LevelOptions) (v : LeveledVersion K) : Nat :=
  if opts.levelCompactionDynamicLevelBytes then
    match firstNonEmptyLevel v with
    -- no data above level 0: it is compacted to the last level
    | none => v.numLevels - 1
    | some first =>
      let baseBytesMax := max opts.maxBytesForLevelBase (levelBytes v.level0)
      let curLevelSize := opts.divide^[v.numLevels - 1 - first] (maxLevelSize v)
      if curLevelSize ≤ opts.divide baseBytesMax then first
      else lowerBaseLevel opts.divide baseBytesMax first curLevelSize
  else 1

/-! ## The inputs -/

/-- What `SetupColumnCompactionInputs` sets up. -/
structure ColumnInputs (K : Type) where
  item : ColumnCompactionItem K
  startLevelInputs : List (FileMetaData K)
  outputLevel : Nat
  outputLevelInputs : List (FileMetaData K)
  grandparents : List (FileMetaData K)

/-- The key range of the compaction: that of the chosen entries, widened to the files
    of the output level. -/
def inputRange (item : ColumnCompactionItem K) : Option (InternalKey K × InternalKey K) :=
  match item.l0Smallest, item.l0Largest with
  | some start1, some limit1 =>
    match item.l1CompactionFiles.head?, item.l1CompactionFiles.getLast? with
    | some first, some last =>
      some (if icmp start1 first.smallest = .lt then start1 else first.smallest,
        if icmp limit1 last.largest = .lt then last.largest else limit1)
    | _, _ => some (start1, limit1)
  | _, _ => none

/-- `SetupColumnCompactionInputs`; `none` when the pick fails, or when one of its
    level-1 files is in another compaction. -/
def setupColumnCompactionInputs (opts : NvmCfOptions) (levelOpts : LevelOptions)
    (beingCompacted : FileMetaData K → Bool) (sst : SstableMetadata K) (v : LeveledVersion K) :
    SstableMetadata K × Option (ColumnInputs K) :=
  let outputLevel := calculateBaseLevel levelOpts v
  let picked := pickColumnCompaction opts sst ⟨v.level0, v.levels 1⟩
  (picked.1, picked.2.bind fun item =>
    if item.l1CompactionFiles.any beingCompacted then none
    else some
      { item := item
        startLevelInputs := item.l0CompactionFiles
        outputLevel := outputLevel
        outputLevelInputs := item.l1CompactionFiles
        grandparents :=
          match inputRange item with
          | some range => getOverlappingInputs (v.levels (outputLevel + 1)) range.1 range.2
          | none => [] })

/-- The inputs that are set up are those of the pick. -/
theorem setup_spec {opts : NvmCfOptions} {levelOpts : LevelOptions}
    {beingCompacted : FileMetaData K → Bool} {sst : SstableMetadata K} {v : LeveledVersion K}
    {inputs : ColumnInputs K}
    (h : (setupColumnCompactionInputs opts levelOpts beingCompacted sst v).2 = some inputs) :
    (pickColumnCompaction opts sst ⟨v.level0, v.levels 1⟩).2 = some inputs.item ∧
      inputs.outputLevel = calculateBaseLevel levelOpts v ∧
      inputs.outputLevelInputs = inputs.item.l1CompactionFiles := by
  obtain ⟨item, hitem, hif⟩ := Option.bind_eq_some_iff.mp h
  split at hif
  · exact nomatch hif
  rw [Option.some.injEq] at hif
  subst hif
  exact ⟨hitem, rfl, rfl⟩

/-! ## The files in range -/

/-- The invariant of the levels above 0: each is sorted, and a file is in one level. -/
structure Levels (v : LeveledVersion K) : Prop where
  sorted : ∀ i, Level1 (v.levels i)
  distinct : ∀ i j f, f ∈ v.levels i → f ∈ v.levels j → i = j

/-- A file holds a user key of `[lo, hi]`. -/
def InRange (g : FileMetaData K) (lo hi : K) : Prop := ∃ k, HoldsKey g k ∧ lo ≤ k ∧ k ≤ hi

/-- Every file of the output level between two chosen keys is an input. -/
def IncludesOverlaps (v : LeveledVersion K) (inputs : ColumnInputs K) : Prop :=
  ∀ g ∈ v.levels inputs.outputLevel, ∀ x ∈ itemEntries inputs.item,
    ∀ y ∈ itemEntries inputs.item, InRange g x.userKey y.userKey → g ∈ inputs.outputLevelInputs

/-- A file of the base level in the range of the column is left: level 1 is the base
    level, and a file begins with the last chosen key, at which a file in front of it
    ends; or another level is, and has a file in the range. -/
def LeavesFile (opts : NvmCfOptions) (base : Nat) (v : LeveledVersion K)
    (column : List (Cell K)) : Prop :=
  ∃ pre a post, LastChosen opts (v.levels 1) column pre a post ∧
    (base = 1 ∧ (∃ f ∈ v.levels 1, ∃ g ∈ v.levels 1, Touches column f ∧
        f.largest.rank < g.smallest.rank ∧ f.largest.userKey = a.userKey ∧
        g.smallest.userKey = a.userKey) ∨
      base ≠ 1 ∧ ∃ g ∈ v.levels base, ∃ lo ∈ column.head?, InRange g lo.userKey a.userKey)

section Setup

variable {opts : NvmCfOptions} {v : LeveledVersion K} {column pre post : List (Cell K)}
  {a : Cell K} {item : ColumnCompactionItem K} {base : Nat}

/-- The files of the pick, when level 1 is the base level. -/
theorem includes_iff_level1 (hv : Levels v)
    (hpoints : ∀ c ∈ column, c.keyMeta.key.type ≠ .rangeDeletion)
    (hsorted : column.Pairwise (fun a b => a.userKey ≤ b.userKey))
    (hlast : LastChosen opts (v.levels 1) column pre a post) {keys : List K}
    (hkeys : ∀ k, k ∈ keys ↔ ∃ c ∈ pre ++ [a], c.userKey = k) :
    (∀ g ∈ v.levels 1, ∀ x ∈ keys, ∀ y ∈ keys, InRange g x y →
        g ∈ filesUpTo a.userKey (touching column (v.levels 1))) ↔
      ¬ ∃ f ∈ v.levels 1, ∃ g ∈ v.levels 1, Touches column f ∧
        f.largest.rank < g.smallest.rank ∧ f.largest.userKey = a.userKey ∧
        g.smallest.userKey = a.userKey := by
  have hl1 := hv.sorted 1
  constructor
  · rintro hall ⟨f, hf, g, hg, htouch, hlt, hfa, hga⟩
    have hak : a.userKey ∈ keys := (hkeys _).mpr ⟨a, by simp, rfl⟩
    -- `g` holds the last chosen key, but the selection does not get past `f`
    have hmem := hall g hg _ hak _ hak
      ⟨a.userKey, hga ▸ hl1.holds_smallest hg, le_rfl, le_rfl⟩
    obtain ⟨-, -, hbefore⟩ :=
      (mem_filesUpTo_iff _ (hl1.sublist List.filter_sublist) g).mp hmem
    exact absurd hfa (ne_of_lt (hbefore f (mem_touching_iff.mpr ⟨hf, htouch⟩) hlt))
  rintro hnone g hg x hx y hy ⟨k, hgk, hxk, hky⟩
  by_contra hgt
  obtain ⟨c, hc, rfl⟩ := (hkeys x).mp hx
  obtain ⟨d, hd, rfl⟩ := (hkeys y).mp hy
  have htouch := touches_of_holds (hlast.mem_column hc) (hlast.mem_column hd)
    (hpoints d (hlast.mem_column hd)) hgk hxk hky
  have hda := le_last_of_mem hsorted hlast.split hd
  obtain ⟨f, hf, hlt, hfa, hga⟩ := smallest_of_not_taken hl1
    (mem_touching_iff.mpr ⟨hg, htouch⟩) (hgk.1.trans (hky.trans hda)) hgt
  exact hnone ⟨f, (mem_touching_iff.mp hf).1, g, hg, (mem_touching_iff.mp hf).2, hlt, hfa, hga⟩

/-- The files of the pick, when another level is the base level. -/
theorem includes_iff_other (hv : Levels v) (hbase : base ≠ 1)
    (hsorted : column.Pairwise (fun a b => a.userKey ≤ b.userKey))
    (hlast : LastChosen opts (v.levels 1) column pre a post) {keys : List K}
    (hkeys : ∀ k, k ∈ keys ↔ ∃ c ∈ pre ++ [a], c.userKey = k) :
    (∀ g ∈ v.levels base, ∀ x ∈ keys, ∀ y ∈ keys, InRange g x y →
        g ∈ filesUpTo a.userKey (touching column (v.levels 1))) ↔
      ¬ ∃ g ∈ v.levels base, ∃ lo ∈ column.head?, InRange g lo.userKey a.userKey := by
  -- the pick only has files of level 1
  have hother : ∀ g ∈ v.levels base, g ∉ filesUpTo a.userKey (touching column (v.levels 1)) := by
    intro g hg hmem
    obtain ⟨ht, -⟩ := (mem_filesUpTo_iff _ ((hv.sorted 1).sublist List.filter_sublist) g).mp hmem
    exact hbase (hv.distinct base 1 g hg (mem_touching_iff.mp ht).1)
  constructor
  · rintro hall ⟨g, hg, lo, hlo, hin⟩
    have hlok : lo.userKey ∈ keys := by
      refine (hkeys _).mpr ⟨lo, ?_, rfl⟩
      rw [hlast.split] at hlo
      cases pre with
      | nil =>
        have : a = lo := Option.some.inj hlo
        exact this ▸ List.mem_singleton_self a
      | cons c pre =>
        have : c = lo := Option.some.inj hlo
        exact this ▸ .head _
    exact hother g hg (hall g hg _ hlok _ ((hkeys _).mpr ⟨a, by simp, rfl⟩) hin)
  rintro hnone g hg x hx y hy ⟨k, hgk, hxk, hky⟩
  obtain ⟨c, hc, rfl⟩ := (hkeys x).mp hx
  obtain ⟨d, hd, rfl⟩ := (hkeys y).mp hy
  obtain ⟨lo, cs, hcol⟩ := List.exists_cons_of_ne_nil (List.ne_nil_of_mem (hlast.mem_column hc))
  have hloc : lo.userKey ≤ c.userKey := by
    have hc' := hlast.mem_column hc
    rw [hcol] at hc' hsorted
    rcases List.mem_cons.mp hc' with rfl | hmem
    · exact le_rfl
    · exact (List.pairwise_cons.mp hsorted).1 c hmem
  refine absurd ⟨g, hg, lo, ?_, k, hgk, hloc.trans hxk, ?_⟩ hnone
  · rw [hcol]
    rfl
  · exact hky.trans (le_last_of_mem hsorted hlast.split hd)

end Setup

/-- **WHEN THE INPUTS ARE COMPLETE**: the inputs of a column compaction hold every
    file of its output level in the chosen range exactly when `LeavesFile` does not
    hold. -/
theorem setup_includes_iff (opts : NvmCfOptions) (levelOpts : LevelOptions)
    (beingCompacted : FileMetaData K → Bool) {sst : SstableMetadata K} {v : LeveledVersion K}
    (hwf : Level0 sst v.level0) (hne : v.level0 ≠ []) (hv : Levels v) {inputs : ColumnInputs K}
    (hsetup : (setupColumnCompactionInputs opts levelOpts beingCompacted sst v).2 = some inputs) :
    IncludesOverlaps v inputs ↔
      ¬ LeavesFile opts (calculateBaseLevel levelOpts v) v
        (cellsOf sst (columnFiles sst v.level0)) := by
  obtain ⟨hpick, hlevel, hfiles⟩ := setup_spec hsetup
  have hcol := Level0.columnFiles hwf
  obtain ⟨item, pre, a, post, hpick', hl1eq, hlast, hmem⟩ :=
    @pick_lastChosen K _ sst ⟨v.level0, v.levels 1⟩ opts hwf hne (hv.sorted 1).levelSorted
  rw [hpick, Option.some.injEq] at hpick'
  subst hpick'
  have hpoints : ∀ c ∈ cellsOf sst (columnFiles sst v.level0),
      c.keyMeta.key.type ≠ .rangeDeletion := fun c hc => point_of_mem_cellsOf hcol hc
  have hsorted := cellsOf_sorted hcol
  -- the chosen keys, as a list
  have hkeys : ∀ k, k ∈ (itemEntries inputs.item).map L0Entry.userKey ↔
      ∃ c ∈ pre ++ [a], c.userKey = k := by
    intro k
    rw [List.mem_map]
    constructor
    · rintro ⟨y, hy, rfl⟩
      obtain ⟨c, hc, rfl⟩ := (hmem y).mp hy
      exact ⟨c, hc, rfl⟩
    · rintro ⟨c, hc, rfl⟩
      exact ⟨_, (hmem _).mpr ⟨c, hc, rfl⟩, rfl⟩
  have hincl : IncludesOverlaps v inputs ↔
      ∀ g ∈ v.levels (calculateBaseLevel levelOpts v),
        ∀ x ∈ (itemEntries inputs.item).map L0Entry.userKey,
        ∀ y ∈ (itemEntries inputs.item).map L0Entry.userKey, InRange g x y →
          g ∈ filesUpTo a.userKey
            (touching (cellsOf sst (columnFiles sst v.level0)) (v.levels 1)) := by
    simp only [IncludesOverlaps, hlevel, hfiles, hl1eq, List.forall_mem_map]
  rw [hincl]
  by_cases hbase : calculateBaseLevel levelOpts v = 1
  · rw [hbase, includes_iff_level1 hv hpoints hsorted hlast hkeys, not_iff_not]
    constructor
    · intro h
      exact ⟨pre, a, post, hlast, .inl ⟨rfl, h⟩⟩
    · rintro ⟨pre', a', post', hlast', ⟨-, h⟩ | ⟨hne, -⟩⟩
      · exact (hlast.unique hlast') ▸ h
      · exact absurd rfl hne
  · rw [includes_iff_other hv hbase hsorted hlast hkeys, not_iff_not]
    constructor
    · intro h
      exact ⟨pre, a, post, hlast, .inr ⟨hbase, h⟩⟩
    · rintro ⟨pre', a', post', hlast', ⟨heq, -⟩ | ⟨-, h⟩⟩
      · exact absurd heq hbase
      · exact (hlast.unique hlast') ▸ h

/-! ## A base level below level 1

    Seven levels with dynamic level bytes, and data in the last one only: the file
    with the keys 20 to 30.  The row of level 0 has the key 25. -/

def dynamicOptions : LevelOptions :=
  { levelCompactionDynamicLevelBytes := true, maxBytesForLevelBase := 1000, divide := (· / 10) }

def dynamicVersion : LeveledVersion Nat :=
  { level0 := meetVersion.level0
    levels := fun i => if i = 6 then
        [{ number := 2, fileSize := 90, smallest := ⟨20, 1, .value⟩, largest := ⟨30, 5, .value⟩
           smallestSeqno := 1, largestSeqno := 5 }]
      else []
    numLevels := 7 }

/-- The entry that is chosen. -/
def chosenEntry : L0Entry Nat :=
  { filenum := 1, index := 0, keyMeta := { key := ⟨25, 9, .value⟩, offset := 0, size := 40 } }

theorem dynamicVersion_levels : Levels dynamicVersion where
  sorted := by
    intro i
    by_cases hi : i = 6
    · subst hi
      exact ⟨by decide, by decide, by decide⟩
    · simp only [dynamicVersion, if_neg hi]
      exact ⟨List.forall_mem_nil _, .nil, List.forall_mem_nil _⟩
  distinct := by
    intro i j f hi hj
    by_cases h : i = 6
    · by_cases h' : j = 6
      · omega
      · simp only [dynamicVersion, if_neg h'] at hj
        exact nomatch hj
    · simp only [dynamicVersion, if_neg h] at hi
      exact nomatch hi

theorem setup_includes_iff_dynamicVersion :
    ∃ inputs, (setupColumnCompactionInputs splitOptions dynamicOptions (fun _ => false)
        meetDirectory dynamicVersion).2 = some inputs ∧
      (IncludesOverlaps dynamicVersion inputs ↔
        ¬ LeavesFile splitOptions 6 dynamicVersion
          (cellsOf meetDirectory (columnFiles meetDirectory dynamicVersion.level0))) :=
  ⟨_, rfl, setup_includes_iff splitOptions dynamicOptions (fun _ => false) meetVersion_level0
    (by decide) dynamicVersion_levels rfl⟩

/-- The output goes to level 6, whose file around key 25 is not an input. -/
theorem setup_leaves_base_file :
    Level0 meetDirectory dynamicVersion.level0 ∧ Levels dynamicVersion ∧
      ∃ inputs, (setupColumnCompactionInputs splitOptions dynamicOptions (fun _ => false)
          meetDirectory dynamicVersion).2 = some inputs ∧
        inputs.outputLevel = 6 ∧ ¬ IncludesOverlaps dynamicVersion inputs := by
  refine ⟨meetVersion_level0, dynamicVersion_levels, _, rfl, by decide, ?_⟩
  intro h
  have hmem := h (dynamicVersion.levels 6)[0] (by decide) chosenEntry (by decide) chosenEntry
    (by decide) ⟨25, ⟨by decide, by decide⟩, le_rfl, le_rfl⟩
  exact absurd hmem (by decide)

end ColumnOutput
