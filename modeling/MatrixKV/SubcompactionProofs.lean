import MatrixKV.RangeSplitProofs
import MatrixKV.ColumnInstallProofs

/-! # Subcompactions of a column — db/compaction_job.cc and the column iterators

    `Prepare` cuts a compaction at boundaries taken from its input files, and
    every subcompaction runs over an iterator of its own: a merge of one child
    per chosen NVM table and one child for the chosen level-1 files.  The first
    subcompaction starts at the front, the others seek to their boundary.  The
    child over an NVM table has no seek: it is left where it was constructed,
    before its first entry, and so it is never valid.

    * `boundaries_strict` — the boundaries are strictly increasing.
    * `feeds_perm` — what one subcompaction is fed, as a multiset.
    * `feeds_split_perm` — what all of them are fed together: every level-1 entry
      once, and the level-0 entries below the first boundary. -/

namespace Subcompaction

open List DbFormat SstableMeta Overlap ColumnPick ColumnEntries ColumnRows ColumnInstall RowMerge
  RangeSplit

variable {K : Type}

/-! ## Boundaries -/

/-- What `Prepare` reads of a `Compaction`; `inputs` pairs a level with its files. -/
structure Compaction (K : Type) where
  maxSubcompactions : Nat
  style : CompactionStyle
  startLevel : Nat
  outputLevel : Nat
  numberLevels : Nat
  isManualCompaction : Bool
  inputs : List (Nat × List (FileMetaData K))

/-- The results `GenSubcompactionBoundaries` takes from the tables and from
    floating-point arithmetic: the size of a key range, the number of output
    files for a total size, and whether a sum reaches the mean of a total over a
    number of subcompactions. -/
structure SizeEstimate (K : Type) where
  approximateSize : K → K → Nat
  maxOutputFiles : Nat → Nat
  reachesMean : Nat → Nat → Nat → Bool

/-- `IsOutputLevelEmpty`, on the last input level. -/
def Compaction.isOutputLevelEmpty (c : Compaction K) : Bool :=
  match c.inputs.getLast? with
  | none => true
  | some (level, files) => level ≠ c.outputLevel || files.isEmpty

def Compaction.shouldFormSubcompactions (c : Compaction K) : Bool :=
  if c.maxSubcompactions ≤ 1 then false
  else match c.style with
    | .level =>
      (c.startLevel = 0 || c.isManualCompaction) && decide (c.outputLevel > 0) &&
        !c.isOutputLevelEmpty
    | .universal => decide (c.numberLevels > 1) && decide (c.outputLevel > 0)
    | _ => false

/-- The candidate boundaries of one input level: both ends of every level-0 file,
    otherwise the ends of the level and, on the output level, every file start. -/
def levelBounds (outputLevel level : Nat) (files : List (FileMetaData K)) : List K :=
  match files with
  | [] => []
  | f :: fs =>
    if level = 0 then
      (f :: fs).flatMap (fun g => [g.smallest.userKey, g.largest.userKey])
    else
      f.smallest.userKey :: ((f :: fs).getLast (by simp)).largest.userKey ::
        if level = outputLevel then fs.map (fun g => g.smallest.userKey) else []

def Compaction.bounds (c : Compaction K) : List K :=
  c.inputs.flatMap (fun p =>
    if c.startLevel ≤ p.1 ∧ p.1 ≤ c.outputLevel then levelBounds c.outputLevel p.1 p.2 else [])

/-- Consecutive pairs of bounds with the size of the data between them. -/
def ranges (size : K → K → Nat) : List K → List (K × Nat)
  | a :: b :: l => (b, size a b) :: ranges size (b :: l)
  | _ => []

/-- The grouping loop, over all ranges but the last: close a subcompaction at the
    limit of a range once its sum reaches the mean, until one is left. -/
def groupRanges (reaches : Nat → Bool) : List (K × Nat) → Nat → Nat → List K
  | [], _, _ => []
  | (limit, size) :: rs, subcompactions, sum =>
    if subcompactions = 1 then groupRanges reaches rs subcompactions (sum + size)
    else if reaches (sum + size) then
      limit :: groupRanges reaches rs (subcompactions - 1) 0
    else groupRanges reaches rs subcompactions (sum + size)

variable [LinearOrder K]

def genSubcompactionBoundaries (est : SizeEstimate K) (c : Compaction K) : List K :=
  let rs := ranges est.approximateSize (sortUniq c.bounds)
  let sum := (rs.map Prod.snd).sum
  let subcompactions := min rs.length (min c.maxSubcompactions (est.maxOutputFiles sum))
  if subcompactions > 1 then
    groupRanges (fun s => est.reachesMean s sum subcompactions) rs.dropLast subcompactions 0
  else []

def boundaries (est : SizeEstimate K) (c : Compaction K) : List K :=
  if c.shouldFormSubcompactions then genSubcompactionBoundaries est c else []

/-- `Prepare`: the `start` and `end` of each subcompaction. -/
def prepare (est : SizeEstimate K) (c : Compaction K) : List (Option K × Option K) :=
  if c.shouldFormSubcompactions then splitRanges none (genSubcompactionBoundaries est c)
  else [(none, none)]

/-- The compaction that `SetupColumnCompactionInputs` builds for a column: level
    style, from level 0 to the base level. -/
def columnCompaction (maxSubcompactions baseLevel numberLevels : Nat)
    (item : ColumnCompactionItem K) : Compaction K :=
  { maxSubcompactions
    style := .level
    startLevel := 0
    outputLevel := baseLevel
    numberLevels
    isManualCompaction := false
    inputs := (0, item.l0CompactionFiles) ::
      if item.l1CompactionFiles.isEmpty then [] else [(baseLevel, item.l1CompactionFiles)] }

theorem prepare_eq (est : SizeEstimate K) (c : Compaction K) :
    prepare est c = splitRanges none (boundaries est c) := by
  rw [prepare, boundaries]
  split <;> rfl

omit [LinearOrder K] in
theorem ranges_limits (size : K → K → Nat) (l : List K) :
    (ranges size l).map Prod.fst = l.tail := by
  fun_induction ranges size l with
  | case1 a b l ih => rw [map_cons, ih]; rfl
  | case2 l h =>
    rcases l with _ | ⟨a, _ | ⟨b, l⟩⟩
    · rfl
    · rfl
    · exact absurd rfl (h a b l)

omit [LinearOrder K] in
theorem groupRanges_sublist (reaches : Nat → Bool) :
    ∀ (rs : List (K × Nat)) (subcompactions sum : Nat),
      (groupRanges reaches rs subcompactions sum).Sublist (rs.map Prod.fst) := by
  intro rs
  induction rs with
  | nil => intro _ _; exact .refl _
  | cons r rs ih =>
  intro subcompactions sum
  rw [groupRanges, map_cons]
  split
  · exact (ih _ _).cons r.1
  split
  · exact (ih _ _).cons_cons r.1
  · exact (ih _ _).cons r.1

/-- **BOUNDARIES** are strictly increasing: they are limits of consecutive ranges
    over sorted bounds. -/
theorem boundaries_strict (est : SizeEstimate K) (c : Compaction K) :
    (boundaries est c).Pairwise (· < ·) := by
  rw [boundaries]
  split
  · rw [genSubcompactionBoundaries]
    split
    · refine .sublist (groupRanges_sublist _ _ _ _) ?_
      refine .sublist ((dropLast_sublist _).map Prod.fst) ?_
      rw [ranges_limits]
      exact (sortUniq_strict c.bounds).tail
    · exact .nil
  · exact .nil

/-! ## The input iterator -/

/-- An entry fed to a compaction: of a chosen NVM table, or the `index`-th of a
    chosen level-1 file. -/
inductive InputEntry (K : Type)
  | level0 (x : L0Entry K)
  | level1 (number index : Nat) (key : InternalKey K)
  deriving DecidableEq, Repr

def InputEntry.key : InputEntry K → InternalKey K
  | .level0 x => x.keyMeta.key
  | .level1 _ _ k => k

/-- `ColumnCompactionWithBufferIterator`: a copied index range of one table. -/
structure ColumnIterator (K : Type) where
  entries : List (InputEntry K)
  current : Int := -1

def ColumnIterator.valid (it : ColumnIterator K) : Bool :=
  decide (0 ≤ it.current) && decide (it.current < it.entries.length)

def ColumnIterator.seekToFirst (it : ColumnIterator K) : ColumnIterator K :=
  { it with current := 0 }

/-- `Seek`: prints a message and moves nothing. -/
def ColumnIterator.seek (it : ColumnIterator K) (_target : InternalKey K) : ColumnIterator K := it

/-- The entries that `key` and `Next` yield from here on. -/
def ColumnIterator.rest (it : ColumnIterator K) : List (InputEntry K) :=
  if it.valid then it.entries.drop it.current.toNat else []

/-- The entries of a level-1 file whose keys are `content f`. -/
def levelEntries (content : FileMetaData K → List (InternalKey K)) (f : FileMetaData K) :
    List (InputEntry K) :=
  (content f).zipIdx.map (fun p => .level1 f.number p.2 p.1)

/-- `LevelIterator::Seek`: the first file that ends at or after the target,
    positioned inside, and the files after it. -/
def levelSeek (content : FileMetaData K → List (InternalKey K)) (target : InternalKey K)
    (files : List (FileMetaData K)) : List (InputEntry K) :=
  match files.dropWhile (fun f => icmp f.largest target = .lt) with
  | [] => []
  | f :: fs =>
    (levelEntries content f).dropWhile (fun e => icmp e.key target = .lt) ++
      fs.flatMap (levelEntries content)

/-- The children over the chosen NVM tables, as constructed. -/
def columnIterators (item : ColumnCompactionItem K) : List (ColumnIterator K) :=
  (item.files.zip (item.l0CompactionFiles.zip item.keysNum)).map
    (fun p => { entries := (entriesOf p.1 p.2.1.firstKeyIndex p.2.2).map .level0 })

/-- The internal key a subcompaction seeks to. -/
def startKey (start : K) : InternalKey K :=
  (LookupKey.mk start maxSequenceNumber).internalKey

/-- What each child of `MakeColumnCompactionInputIterator` yields once the merging
    iterator is positioned: `SeekToFirst` or `Seek`, passed on to every child. -/
def positioned (item : ColumnCompactionItem K)
    (content : FileMetaData K → List (InternalKey K)) (start : Option K) :
    List (List (InputEntry K)) :=
  match start with
  | none =>
    (columnIterators item).map (fun it => it.seekToFirst.rest) ++
      [item.l1CompactionFiles.flatMap (levelEntries content)]
  | some a =>
    (columnIterators item).map (fun it => (it.seek (startKey a)).rest) ++
      [levelSeek content (startKey a) item.l1CompactionFiles]

/-- The loop of `ProcessKeyValueCompaction` stops at the first user key not
    below `end`. -/
def beforeEnd (stop : Option K) (e : InputEntry K) : Bool :=
  stop.all (fun b => decide (e.key.userKey < b))

/-- `out` can be fed to the compaction iterator of a subcompaction: the merging
    iterator yields a least head of its valid children, whichever it is among
    equal ones, and the loop stops at `end`. -/
def Feeds (item : ColumnCompactionItem K) (content : FileMetaData K → List (InternalKey K))
    (r : Option K × Option K) (out : List (InputEntry K)) : Prop :=
  ∃ trace, MergeTrace (fun e : InputEntry K => e.key.rank) (positioned item content r.1) trace ∧
    out = (trace.map Prod.snd).takeWhile (beforeEnd r.2)

/-- The feed that takes the first child among equal heads. -/
def feed (item : ColumnCompactionItem K) (content : FileMetaData K → List (InternalKey K))
    (r : Option K × Option K) : List (InputEntry K) :=
  let rows := positioned item content r.1
  ((mergeRows (fun e : InputEntry K => e.key.rank) rows.flatten.length rows).map
    Prod.snd).takeWhile (beforeEnd r.2)

theorem feeds_feed (item : ColumnCompactionItem K)
    (content : FileMetaData K → List (InternalKey K)) (r : Option K × Option K) :
    Feeds item content r (feed item content r) :=
  ⟨_, mergeRows_trace _ _ _ le_rfl, rfl⟩

/-! ## What a positioned child yields -/

/-- The level-1 files list their keys in order and within their bounds, and lie
    apart in file order, as `CheckConsistency` demands of a level above 0. -/
structure LevelContent (content : FileMetaData K → List (InternalKey K))
    (files : List (FileMetaData K)) : Prop where
  sorted : ∀ f ∈ files, SortedKeys (content f)
  smallest : ∀ f ∈ files, ∀ k ∈ content f, f.smallest.rank ≤ k.rank
  largest : ∀ f ∈ files, ∀ k ∈ content f, k.rank ≤ f.largest.rank
  apart : files.Pairwise (fun f g => f.largest.rank < g.smallest.rank)
  sequences : ∀ f ∈ files, ∀ k ∈ content f, k.sequence ≤ maxSequenceNumber

variable {content : FileMetaData K → List (InternalKey K)} {files : List (FileMetaData K)}

theorem LevelContent.sublist {files' : List (FileMetaData K)} (h : LevelContent content files)
    (hsub : files'.Sublist files) : LevelContent content files' where
  sorted f hf := h.sorted f (hsub.subset hf)
  smallest f hf := h.smallest f (hsub.subset hf)
  largest f hf := h.largest f (hsub.subset hf)
  apart := h.apart.sublist hsub
  sequences f hf := h.sequences f (hsub.subset hf)

/-- The inputs of a column: sorted tables and ordered level-1 files. -/
structure InputsSorted (item : ColumnCompactionItem K)
    (content : FileMetaData K → List (InternalKey K)) : Prop where
  tables : ∀ e ∈ item.files, SortedKeys (e.keysMeta.map KeysMetadata.key)
  level1 : LevelContent content item.l1CompactionFiles

/-- What a pick chooses is sorted. -/
theorem pick_inputsSorted {sst : SstableMetadata K} {vs : VersionStorageInfo K}
    (opts : NvmCfOptions) (hwf : Level0 sst vs.level0) (hl1 : LevelSorted vs.level1)
    (hcontent : LevelContent content vs.level1) {item : ColumnCompactionItem K}
    (hpick : (pickColumnCompaction opts sst vs).2 = some item) : InputsSorted item content where
  tables := by
    obtain ⟨sel, hsel⟩ := pick_selected opts hwf hl1 hpick
    intro e he
    rw [hsel.files] at he
    obtain ⟨p, hp, rfl⟩ := mem_map.mp he
    exact hwf.sorted p.1 (hsel.mem p hp)
  level1 := by
    obtain ⟨l1, sm, x, taken, left, rfl, -, hsub⟩ := pick_cut opts hwf hl1 hpick
    exact hcontent.sublist hsub

/-- The chosen entries of both levels. -/
def inputEntries (item : ColumnCompactionItem K)
    (content : FileMetaData K → List (InternalKey K)) : List (InputEntry K) :=
  (itemEntries item).map .level0 ++ item.l1CompactionFiles.flatMap (levelEntries content)

variable {f : FileMetaData K}

section

omit [LinearOrder K]

/-- From the front a column child yields its whole range. -/
theorem seekToFirst_rest (it : ColumnIterator K) : it.seekToFirst.rest = it.entries := by
  rw [ColumnIterator.rest, ColumnIterator.valid, ColumnIterator.seekToFirst]
  cases it.entries <;> simp

/-- After a seek a fresh column child yields nothing. -/
theorem seek_rest_of_fresh {it : ColumnIterator K} (h : it.current = -1)
    (target : InternalKey K) : (it.seek target).rest = [] := by
  simp [ColumnIterator.rest, ColumnIterator.valid, ColumnIterator.seek, h]

theorem columnIterators_entries (item : ColumnCompactionItem K) :
    ((columnIterators item).map ColumnIterator.entries).flatten
      = (itemEntries item).map .level0 := by
  rw [columnIterators, itemEntries, map_map, map_flatMap, flatMap_def]
  rfl

theorem columnIterators_fresh {item : ColumnCompactionItem K} {it : ColumnIterator K}
    (h : it ∈ columnIterators item) : it.current = -1 := by
  obtain ⟨p, _, rfl⟩ := mem_map.mp h
  rfl

theorem mem_levelEntries {e : InputEntry K} (h : e ∈ levelEntries content f) :
    e.key ∈ content f := by
  obtain ⟨p, hp, rfl⟩ := mem_map.mp h
  exact fst_mem_of_mem_zipIdx hp

theorem pairwise_zipIdx {α : Type} {R : α → α → Prop} {l : List α} (h : l.Pairwise R) :
    l.zipIdx.Pairwise (fun p q => R p.1 q.1) := by
  have hmap : (l.zipIdx.map Prod.fst).Pairwise R := by rwa [zipIdx_map_fst]
  rwa [pairwise_map] at hmap

end

theorem levelEntries_sorted (h : SortedKeys (content f)) :
    (levelEntries content f).Pairwise (fun a b => a.key.rank < b.key.rank) := by
  rw [levelEntries, pairwise_map]
  exact pairwise_zipIdx h

theorem entriesOf_sorted {e : FileEntry K} (h : SortedKeys (e.keysMeta.map KeysMetadata.key))
    (first num : Nat) :
    (entriesOf e first num).Pairwise (fun a b => a.keyMeta.key.rank < b.keyMeta.key.rank) := by
  rw [SortedKeys, pairwise_map] at h
  rw [entriesOf, pairwise_map]
  exact (pairwise_zipIdx h).sublist ((take_sublist _ _).trans (drop_sublist _ _))

section Level1

variable {content : FileMetaData K → List (InternalKey K)}

/-- The largest key of a file is below every key of a later file. -/
theorem LevelContent.largest_lt {fs : List (FileMetaData K)} (h : LevelContent content (f :: fs))
    {g : FileMetaData K} (hg : g ∈ fs) {e : InputEntry K} (he : e ∈ levelEntries content g) :
    f.largest.rank < e.key.rank :=
  lt_of_lt_of_le ((pairwise_cons.mp h.apart).1 g hg)
    (h.smallest g (.tail _ hg) _ (mem_levelEntries he))

theorem LevelContent.tail {fs : List (FileMetaData K)} (h : LevelContent content (f :: fs)) :
    LevelContent content fs :=
  h.sublist (sublist_cons_self f fs)

theorem LevelContent.entries_sorted (h : LevelContent content files) :
    (files.flatMap (levelEntries content)).Pairwise (fun a b => a.key.rank < b.key.rank) := by
  induction files with
  | nil => exact .nil
  | cons f fs ih =>
  rw [flatMap_cons, pairwise_append]
  refine ⟨levelEntries_sorted (h.sorted f (.head _)), ih h.tail, ?_⟩
  intro a ha b hb
  obtain ⟨g, hg, hb⟩ := mem_flatMap.mp hb
  exact lt_of_le_of_lt (h.largest f (.head _) _ (mem_levelEntries ha))
    (h.largest_lt hg hb)

theorem levelSeek_cons_of_lt {target : InternalKey K} (fs : List (FileMetaData K))
    (h : icmp f.largest target = .lt) :
    levelSeek content target (f :: fs) = levelSeek content target fs := by
  simp only [levelSeek, dropWhile_cons, h, decide_true, if_true]

theorem levelSeek_cons_of_ge {target : InternalKey K} (fs : List (FileMetaData K))
    (h : icmp f.largest target ≠ .lt) :
    levelSeek content target (f :: fs)
      = (levelEntries content f).dropWhile (fun e => icmp e.key target = .lt) ++
          fs.flatMap (levelEntries content) := by
  simp only [levelSeek, dropWhile_cons, h, decide_false]
  rfl

/-- The seek inside one file. -/
theorem levelEntries_dropWhile (h : SortedKeys (content f)) (target : InternalKey K) :
    (levelEntries content f).dropWhile (fun e => icmp e.key target = .lt)
      = (levelEntries content f).filter (fun e => decide (target.rank ≤ e.key.rank)) := by
  have hdown : (levelEntries content f).Pairwise (fun a b =>
      decide (icmp b.key target = .lt) = true → decide (icmp a.key target = .lt) = true) := by
    refine (levelEntries_sorted h).imp ?_
    intro a b hab hb
    simp only [decide_eq_true_eq, icmp_lt_iff] at hb ⊢
    exact hab.trans hb
  rw [dropWhile_eq_filter hdown]
  refine filter_congr ?_
  intro e _
  rw [Bool.eq_iff_iff]
  simp [icmp_lt_iff]

/-- **THE LEVEL CHILD** yields the entries from the target on. -/
theorem levelSeek_eq_filter (target : InternalKey K) (h : LevelContent content files) :
    levelSeek content target files
      = (files.flatMap (levelEntries content)).filter
          (fun e => decide (target.rank ≤ e.key.rank)) := by
  induction files with
  | nil => rfl
  | cons f fs ih =>
  rw [flatMap_cons, filter_append]
  by_cases hlt : icmp f.largest target = .lt
  · -- the file ends before the target: nothing of it is kept
    have hnone : (levelEntries content f).filter
        (fun e => decide (target.rank ≤ e.key.rank)) = [] := by
      rw [filter_eq_nil_iff]
      intro e he
      have hle := h.largest f (.head _) _ (mem_levelEntries he)
      simpa using hle.trans_lt ((icmp_lt_iff _ _).mp hlt)
    rw [levelSeek_cons_of_lt fs hlt, hnone, nil_append]
    exact ih h.tail
  · -- the first file to reach the target: all files after it lie above
    have hall : (fs.flatMap (levelEntries content)).filter
        (fun e => decide (target.rank ≤ e.key.rank)) = fs.flatMap (levelEntries content) := by
      rw [filter_eq_self]
      intro e he
      obtain ⟨g, hg, he⟩ := mem_flatMap.mp he
      simpa using (((icmp_ge_iff _ _).mp hlt).trans_lt (h.largest_lt hg he)).le
    rw [levelSeek_cons_of_ge fs hlt, hall, levelEntries_dropWhile (h.sorted f (.head _))]

end Level1

/-! ## What the subcompactions are fed -/

section Feeds

variable {item : ColumnCompactionItem K} {content : FileMetaData K → List (InternalKey K)}

/-- A range test on the user key of an entry. -/
def keyIn (r : Option K × Option K) (e : InputEntry K) : Bool := inRange r e.key.userKey

theorem filter_keyIn_open (l : List (InputEntry K)) : l.filter (keyIn (none, none)) = l :=
  filter_eq_self.mpr (fun e _ => by simp [keyIn])

omit [LinearOrder K] in
theorem columnIterators_seekToFirst (item : ColumnCompactionItem K) :
    (columnIterators item).map (fun it => it.seekToFirst.rest)
      = (columnIterators item).map ColumnIterator.entries :=
  map_congr_left (fun it _ => seekToFirst_rest it)

theorem startKey_rank_le_iff (a : K) {k : InternalKey K} (hk : k.sequence ≤ maxSequenceNumber) :
    (startKey a).rank ≤ k.rank ↔ a ≤ k.userKey := by
  rw [startKey, internalKey_rank_le_iff]
  simp [hk, le_iff_lt_or_eq (a := a)]

theorem positioned_none : (positioned item content none).flatten = inputEntries item content := by
  rw [positioned, inputEntries, columnIterators_seekToFirst, flatten_append,
    columnIterators_entries, flatten_singleton]

section

variable (h : InputsSorted item content)
include h

/-- A sought iterator has lost every level-0 child. -/
theorem positioned_some (a : K) : (positioned item content (some a)).flatten
      = (item.l1CompactionFiles.flatMap (levelEntries content)).filter (keyIn (some a, none)) := by
  have hlost : ((columnIterators item).map (fun it => (it.seek (startKey a)).rest)).flatten
      = [] := by
    rw [flatten_eq_nil_iff]
    intro r hr
    obtain ⟨it, hit, rfl⟩ := mem_map.mp hr
    exact seek_rest_of_fresh (columnIterators_fresh hit) _
  rw [positioned, flatten_append, hlost, nil_append, flatten_singleton,
    levelSeek_eq_filter _ h.level1]
  refine filter_congr ?_
  intro e he
  obtain ⟨f, hf, he⟩ := mem_flatMap.mp he
  rw [Bool.eq_iff_iff, keyIn, inRange_iff]
  simp [startKey_rank_le_iff a (h.level1.sequences f hf _ (mem_levelEntries he))]

/-- Every child yields its entries in order. -/
theorem positioned_sorted (start : Option K) :
    ∀ r ∈ positioned item content start, r.Pairwise (fun a b => a.key.rank ≤ b.key.rank) := by
  have hlevel := h.level1.entries_sorted
  cases start with
  | none =>
    intro r hr
    rw [positioned, columnIterators_seekToFirst] at hr
    rcases mem_append.mp hr with hr | hr
    · obtain ⟨it, hit, rfl⟩ := mem_map.mp hr
      obtain ⟨p, hp, rfl⟩ := mem_map.mp hit
      refine pairwise_map.mpr ?_
      exact (entriesOf_sorted (h.tables _ (of_mem_zip hp).1) _ _).imp le_of_lt
    · rw [mem_singleton.mp hr]
      exact hlevel.imp le_of_lt
  | some a =>
  intro r hr
  rw [positioned] at hr
  rcases mem_append.mp hr with hr | hr
  · obtain ⟨it, hit, rfl⟩ := mem_map.mp hr
    rw [seek_rest_of_fresh (columnIterators_fresh hit)]
    exact .nil
  · rw [mem_singleton.mp hr, levelSeek_eq_filter _ h.level1]
    exact (hlevel.sublist filter_sublist).imp le_of_lt

/-- **ONE FEED**: the positioned entries below the end. -/
theorem feeds_perm {r : Option K × Option K}
    {out : List (InputEntry K)} (hfeeds : Feeds item content r out) :
    out.Perm ((positioned item content r.1).flatten.filter (keyIn (none, r.2))) := by
  obtain ⟨trace, htrace, rfl⟩ := hfeeds
  have hsame : beforeEnd (K := K) r.2 = keyIn (none, r.2) := by
    funext e
    simp [beforeEnd, keyIn, inRange]
  have hdown : (trace.map Prod.snd).Pairwise
      (fun a b => keyIn (none, r.2) b = true → keyIn (none, r.2) a = true) := by
    rw [pairwise_map]
    refine (trace_sorted htrace (positioned_sorted h r.1)).imp ?_
    intro p q hpq hq
    rw [keyIn, inRange_iff] at hq ⊢
    exact ⟨fun _ ha => absurd ha (Option.not_mem_none _),
      fun b hb => (userKey_le_of_rank_le hpq).trans_lt (hq.2 b hb)⟩
  rw [hsame, takeWhile_eq_filter hdown]
  exact (trace_perm htrace).filter _

/-- A subcompaction that seeks is fed the level-1 entries of its range. -/
theorem feeds_some_perm {a : K} {stop : Option K}
    {out : List (InputEntry K)} (hfeeds : Feeds item content (some a, stop) out) :
    out.Perm ((item.l1CompactionFiles.flatMap (levelEntries content)).filter
      (keyIn (some a, stop))) := by
  have hperm := feeds_perm h hfeeds
  rw [positioned_some h, filter_filter] at hperm
  refine hperm.trans (List.Perm.of_eq (filter_congr ?_))
  intro e _
  rw [Bool.eq_iff_iff]
  simp [keyIn, inRange, and_comm]

theorem feeds_splitRanges_perm (bs : List K) (a : K) (outs : List (List (InputEntry K)))
    (hfeeds : List.Forall₂ (Feeds item content) (splitRanges (some a) bs) outs) :
    outs.flatten.Perm
      ((splitRanges (some a) bs).flatMap (fun r =>
        (item.l1CompactionFiles.flatMap (levelEntries content)).filter (keyIn r))) := by
  induction bs generalizing a outs with
  | nil =>
    obtain ⟨out, rest, hout, hrest, rfl⟩ := List.forall₂_cons_left_iff.mp hfeeds
    obtain rfl := List.forall₂_nil_left_iff.mp hrest
    simpa [splitRanges] using feeds_some_perm h hout
  | cons b bs ih =>
  obtain ⟨out, rest, hout, hrest, rfl⟩ := List.forall₂_cons_left_iff.mp hfeeds
  rw [splitRanges, flatMap_cons, flatten_cons]
  exact (feeds_some_perm h hout).append (ih b rest hrest)

/-- The subcompactions after a boundary are together fed the level-1 entries at or
    above it. -/
theorem feeds_after_perm {bs : List K} {a : K}
    {outs : List (List (InputEntry K))} (hbs : (a :: bs).Pairwise (· < ·))
    (hfeeds : List.Forall₂ (Feeds item content) (splitRanges (some a) bs) outs) :
    outs.flatten.Perm ((item.l1CompactionFiles.flatMap (levelEntries content)).filter
      (keyIn (some a, none))) := by
  obtain ⟨ha, hbs⟩ := pairwise_cons.mp hbs
  refine (feeds_splitRanges_perm h bs a outs hfeeds).trans
    (filter_splitRanges_perm (fun e : InputEntry K => e.key.userKey) _ bs (some a) hbs ?_)
  rintro a' ha' b hb
  obtain rfl : a = a' := by simpa using ha'
  exact (ha b hb).le

/-- **ALL FEEDS**: every level-1 entry once, and of level 0 what lies below the
    first boundary. -/
theorem feeds_split_perm {bs : List K}
    {outs : List (List (InputEntry K))} (hbs : bs.Pairwise (· < ·))
    (hfeeds : List.Forall₂ (Feeds item content) (splitRanges none bs) outs) :
    outs.flatten.Perm (((itemEntries item).filter
        (fun x => inRange (none, bs.head?) x.userKey)).map .level0 ++
      item.l1CompactionFiles.flatMap (levelEntries content)) := by
  have hmap : ∀ r : Option K × Option K, ((itemEntries item).map InputEntry.level0).filter (keyIn r)
      = ((itemEntries item).filter (fun x => inRange r x.userKey)).map .level0 :=
    fun r => filter_map
  cases bs with
  | nil =>
    obtain ⟨out, rest, hout, hrest, rfl⟩ := List.forall₂_cons_left_iff.mp hfeeds
    obtain rfl := List.forall₂_nil_left_iff.mp hrest
    have hperm := feeds_perm h hout
    rw [positioned_none, inputEntries, filter_append, hmap] at hperm
    rw [filter_keyIn_open] at hperm
    simpa using hperm
  | cons b bs =>
  obtain ⟨out, rest, hout, hrest, rfl⟩ := List.forall₂_cons_left_iff.mp hfeeds
  have hperm := feeds_perm h hout
  rw [positioned_none, inputEntries, filter_append, hmap] at hperm
  have hcut := filter_range_perm (fun e : InputEntry K => e.key.userKey) none
    (b := b) nofun (item.l1CompactionFiles.flatMap (levelEntries content))
  rw [flatten_cons]
  refine (hperm.append (feeds_after_perm h hbs hrest)).trans ?_
  rw [append_assoc]
  exact (hcut.trans (List.Perm.of_eq (filter_keyIn_open _))).append_left _

end

end Feeds

/-! ## Partition -/

theorem forall₂_feed (item : ColumnCompactionItem K)
    (content : FileMetaData K → List (InternalKey K)) (rs : List (Option K × Option K)) :
    List.Forall₂ (Feeds item content) rs (rs.map (feed item content)) := by
  induction rs with
  | nil => exact .nil
  | cons r rs ih => exact .cons (feeds_feed item content r) ih

/-- **THE SUBCOMPACTIONS PARTITION THE COLUMN** exactly when every chosen level-0
    key lies below the first boundary; with a single subcompaction there is none. -/
theorem prepare_feeds_partition_iff (est : SizeEstimate K) (opts : NvmCfOptions)
    (maxSubcompactions baseLevel numberLevels : Nat) {sst : SstableMetadata K}
    {vs : VersionStorageInfo K} {content : FileMetaData K → List (InternalKey K)}
    (hwf : Level0 sst vs.level0) (hl1 : LevelSorted vs.level1)
    (hcontent : LevelContent content vs.level1) {item : ColumnCompactionItem K}
    (hpick : (pickColumnCompaction opts sst vs).2 = some item)
    {outs : List (List (InputEntry K))}
    (hfeeds : List.Forall₂ (Feeds item content)
      (prepare est (columnCompaction maxSubcompactions baseLevel numberLevels item)) outs) :
    outs.flatten.Perm (inputEntries item content) ↔
      ∀ b ∈ (boundaries est
          (columnCompaction maxSubcompactions baseLevel numberLevels item)).head?,
        ∀ x ∈ itemEntries item, x.userKey < b := by
  rw [prepare_eq] at hfeeds
  have hfed := feeds_split_perm (pick_inputsSorted opts hwf hl1 hcontent hpick)
    (boundaries_strict est _) hfeeds
  rw [hfed.congr_left, inputEntries, perm_append_right_iff]
  constructor
  · -- a sublist of the same length is the whole list
    intro hperm b hb x hx
    have hlen := hperm.length_eq
    rw [length_map, length_map, length_filter_eq_length_iff] at hlen
    exact ((inRange_iff _ _).mp (hlen x hx)).2 b hb
  · intro hbelow
    rw [filter_eq_self.mpr]
    intro x hx
    exact (inRange_iff _ _).mpr ⟨nofun, fun b hb => hbelow b hb x hx⟩

/-- Room for the whole of the two tables of `splitVersion`. -/
def wholeOptions : NvmCfOptions :=
    { splitOptions with targetFileSizeBase := 6 * 1024 * 1024 + 1000 }

/-- Keys of the level-1 file of `splitVersion`. -/
def splitContent (_ : FileMetaData Nat) : List (InternalKey Nat) :=
  [⟨20, 0, .value⟩, ⟨30, 0, .value⟩]

/-- Ranges of ten bytes each and room for two output files. -/
def evenEstimate : SizeEstimate Nat :=
  { approximateSize := fun _ _ => 10
    maxOutputFiles := fun _ => 2
    reachesMean := fun sum total subcompactions => decide (total ≤ sum * subcompactions) }

theorem splitVersion_content : LevelContent splitContent splitVersion.level1 where
  sorted := by decide
  smallest := by decide
  largest := by decide
  apart := by decide
  sequences := by decide

theorem prepare_feeds_partition_iff_splitVersion :
    ∃ item, (pickColumnCompaction wholeOptions splitDirectory splitVersion).2 = some item ∧
      (((prepare evenEstimate (columnCompaction 2 1 7 item)).map
          (feed item splitContent)).flatten.Perm (inputEntries item splitContent) ↔
        ∀ b ∈ (boundaries evenEstimate (columnCompaction 2 1 7 item)).head?,
          ∀ x ∈ itemEntries item, x.userKey < b) :=
  ⟨_, rfl, prepare_feeds_partition_iff evenEstimate wholeOptions 2 1 7 splitVersion_level0
    splitVersion_level1 splitVersion_content rfl (forall₂_feed _ _ _)⟩

/-- Two subcompactions cut at key 25: the level-0 entry of key 25 is fed to
    neither, while the level-1 entries are fed once each. -/
theorem prepare_loses_level0 :
    Level0 splitDirectory splitVersion.level0 ∧ LevelSorted splitVersion.level1 ∧
      LevelContent splitContent splitVersion.level1 ∧
      ∃ item, (pickColumnCompaction wholeOptions splitDirectory splitVersion).2 = some item ∧
        prepare evenEstimate (columnCompaction 2 1 7 item) = [(none, some 25), (some 25, none)] ∧
        ((prepare evenEstimate (columnCompaction 2 1 7 item)).map
          (fun r => (feed item splitContent r).map (fun e => e.key.userKey)))
            = [[5, 5, 20], [30]] ∧
        (inputEntries item splitContent).map (fun e => e.key.userKey) = [5, 5, 25, 20, 30] ∧
        ¬ ((prepare evenEstimate (columnCompaction 2 1 7 item)).map
          (feed item splitContent)).flatten.Perm (inputEntries item splitContent) := by
  refine ⟨splitVersion_level0, splitVersion_level1, splitVersion_content, _, rfl, by decide,
    by decide, by decide, ?_⟩
  intro hperm
  exact absurd hperm.length_eq (by decide)

end Subcompaction
