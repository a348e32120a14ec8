import MatrixKV.KeysMergeProofs
import MatrixKV.OverlapProofs

/-! # Picking a column — NvmCfModule::PickColumnCompaction

    A column compaction moves a key range of all rows of the matrix to level 1.
    The rows are read in user key order and cells are added until a size is
    reached; what was added is remembered as a count per row.

    * Without overlapping level-1 files `pickNoL1` stops at the size, but only
      between two different user keys.
    * With overlapping files `pickHaveL1` follows the alternating file bounds:
      inside a file it runs to the file's end, between files it stops at the
      size right after the cell that reaches it.

    Both loops add an initial segment of the cells; which one is said in
    `ColumnPrefix` and `ColumnLevel1`. -/

namespace ColumnPick

open List DbFormat SstableMeta KeysMerge Overlap

variable {K : Type} [LinearOrder K]

structure VersionStorageInfo (K : Type) where
  level0 : List (FileMetaData K)
  level1 : List (FileMetaData K)

structure NvmCfOptions where
  columnCompactionNoL1SelectL0 : Int
  columnCompactionHaveL1SelectL0 : Int
  targetFileSizeBase : Nat
  deriving DecidableEq, Repr

/-- The size thresholds, in `uint64_t` arithmetic: a number of files times the
    target size, less 6 MB for each file. -/
def compactionSizeStop (selectL0 : Int) (targetFileSizeBase : Nat) : Nat :=
  ((selectL0 * targetFileSizeBase - 6 * 1024 * 1024 * selectL0) % 2 ^ 64).toNat

structure ColumnCompactionItem (K : Type) where
  files : List (FileEntry K)
  keysNum : List Nat
  keysSize : List Nat
  l0CompactionFiles : List (FileMetaData K)
  l1CompactionFiles : List (FileMetaData K)
  l0Smallest : Option (InternalKey K)
  l0Largest : Option (InternalKey K)
  l0SelectSize : Nat
  deriving DecidableEq, Repr

/-- The local variables of the selection loops.  `last` is the cell named by
    `files_index` and `keys_index`. -/
structure PickState (K : Type) where
  keysNum : List Nat
  keysSize : List Nat
  allComptionSize : Nat
  last : Option (Cell K)
  l0Largest : Option (InternalKey K)
  deriving DecidableEq, Repr

def PickState.add (st : PickState K) (c : Cell K) : PickState K :=
  { st with
    keysNum := st.keysNum.modify c.filesIndex (· + 1)
    keysSize := st.keysSize.modify c.filesIndex (· + c.keyMeta.size)
    allComptionSize := st.allComptionSize + c.keyMeta.size
    last := some c }

/-- The selection without overlapping level-1 files. -/
def pickNoL1 (stop : Nat) : PickState K → List (Cell K) → PickState K
  | st, [] =>
    if st.allComptionSize > 0 then { st with l0Largest := st.last.map (·.keyMeta.key) }
    else st
  | st, c :: cs =>
    if stop ≤ st.allComptionSize then
      -- the next cell still belongs to the last user key: take it whatever the size
      if st.last.map Cell.userKey = some c.userKey then pickNoL1 stop (st.add c) cs
      else { st with l0Largest := st.last.map (·.keyMeta.key) }
    else pickNoL1 stop (st.add c) cs

/-- The bounds of the overlapping files: smallest, largest, smallest, … -/
def l1Ranges (files : List (FileMetaData K)) : List K :=
  files.flatMap (fun f => [f.smallest.userKey, f.largest.userKey])

/-- Move `L1Range_index` over the bounds that `key` has passed.  `full` says that
    the size is reached; then crossing the end of a file stops the selection
    (the second component).  The list holds the bounds from the index on. -/
def advanceRange (key : K) (full : Bool) : List K → Nat → Nat × Bool
  | [], idx => (idx, false)
  | r :: rs, idx =>
    if idx % 2 = 0 then
      if r ≤ key then advanceRange key full rs (idx + 1) else (idx, false)
    else if r < key then
      if full then (idx, true) else advanceRange key full rs (idx + 1)
    else (idx, false)

/-- The selection along the bounds of the overlapping files, with the final
    `L1Range_index`. -/
def pickHaveL1 (ranges : List K) (stop : Nat) :
    PickState K → Nat → List (Cell K) → PickState K × Nat
  | st, idx, [] =>
    if st.allComptionSize > 0 then
      ({ st with l0Largest := st.last.map (·.keyMeta.key) }, idx)
    else (st, idx)
  | st, idx, c :: cs =>
    match advanceRange c.userKey (stop ≤ st.allComptionSize) (ranges.drop idx) idx with
    | (idx', true) => ({ st with l0Largest := some c.keyMeta.key }, idx')
    | (idx', false) =>
      if idx' % 2 = 0 ∧ stop ≤ (st.add c).allComptionSize then
        ({ st.add c with l0Largest := some c.keyMeta.key }, idx')
      else pickHaveL1 ranges stop (st.add c) idx' cs

/-- The rows of the column with their first remaining index: the walk over level
    0 that accompanies the lookups.  A file that is missing ends the pick. -/
def findColumn (sst : SstableMetadata K) :
    List Nat → List (FileMetaData K) → Option (List (FileEntry K × Nat))
  | [], _ => some []
  | num :: nums, l0 =>
    match sst.findFile num with
    | none => none
    | some e =>
      match l0.dropWhile (fun f => f.number ≠ e.filenum) with
      | [] => none
      | f :: fs => (findColumn sst nums fs).map ((e, f.firstKeyIndex) :: ·)

/-- The result of the selection: the rows with at least one chosen cell. -/
def makeItem (comfiles : List (FileEntry K)) (l0 l1 : List (FileMetaData K))
    (smallest : Option (InternalKey K)) (st : PickState K) : ColumnCompactionItem K :=
  let selected := (comfiles.zip (st.keysNum.zip st.keysSize)).filter (fun p => p.2.1 ≠ 0)
  { files := selected.map Prod.fst
    keysNum := selected.map (fun p => p.2.1)
    keysSize := selected.map (fun p => p.2.2)
    l0CompactionFiles :=
      selected.filterMap (fun p => l0.find? (fun f => f.number = p.1.filenum))
    l1CompactionFiles := l1
    l0Smallest := smallest
    l0Largest := st.l0Largest
    l0SelectSize := st.allComptionSize }

def PickState.start (rows : Nat) (cs : List (Cell K)) : PickState K :=
  { keysNum := List.replicate rows 0
    keysSize := List.replicate rows 0
    allComptionSize := 0
    last := cs.head?
    l0Largest := none }

/-- The selection proper, on the rows of the column. -/
def pickCells (opts : NvmCfOptions) (vs : VersionStorageInfo K)
    (comfiles : List (FileEntry K)) (firsts : List Nat) : Option (ColumnCompactionItem K) :=
  let it := KeysMergeIterator.create comfiles firsts
  let cs := cells comfiles firsts
  match it.seekToFirst.getCurret, it.seekToLast.getCurret with
  | some lo, some hi =>
    let start := PickState.start comfiles.length cs
    match getOverlappingInputs vs.level1 lo.keyMeta.key hi.keyMeta.key with
    | [] =>
      let stop := compactionSizeStop opts.columnCompactionNoL1SelectL0 opts.targetFileSizeBase
      some (makeItem comfiles vs.level0 [] (some lo.keyMeta.key) (pickNoL1 stop start cs))
    | overlap =>
      let stop := compactionSizeStop opts.columnCompactionHaveL1SelectL0 opts.targetFileSizeBase
      let (st, idx) := pickHaveL1 (l1Ranges overlap) stop start 0 cs
      some (makeItem comfiles vs.level0 (overlap.take ((idx + 1) / 2)) (some lo.keyMeta.key) st)
  -- rows without a single key: the source reads past its arrays
  | _, _ => none

/-- `PickColumnCompaction`: the updated directory and the chosen column. -/
def pickColumnCompaction (opts : NvmCfOptions) (sst : SstableMetadata K)
    (vs : VersionStorageInfo K) : SstableMetadata K × Option (ColumnCompactionItem K) :=
  let sst' := sst.updateCompactionState vs.level0
  if sst'.compactionFiles = [] then (sst', none)
  else
    match findColumn sst' sst'.compactionFiles vs.level0 with
    | none => (sst', none)
    | some rows => (sst', pickCells opts vs (rows.map Prod.fst) (rows.map Prod.snd))

/-! ## Adding cells -/

/-- The size of a list of cells. -/
def cellsSize (cs : List (Cell K)) : Nat := (cs.map (fun c => c.keyMeta.size)).sum

def PickState.addAll (st : PickState K) (cs : List (Cell K)) : PickState K :=
  cs.foldl PickState.add st

section

omit [LinearOrder K]

@[simp] theorem cellsSize_cons (c : Cell K) (cs : List (Cell K)) :
    cellsSize (c :: cs) = c.keyMeta.size + cellsSize cs := by
  simp [cellsSize]

@[simp] theorem cellsSize_append (cs ds : List (Cell K)) :
    cellsSize (cs ++ ds) = cellsSize cs + cellsSize ds := by
  simp [cellsSize]

@[simp] theorem cellsSize_nil : cellsSize ([] : List (Cell K)) = 0 := rfl

theorem addAll_cons (st : PickState K) (c : Cell K) (cs : List (Cell K)) :
    st.addAll (c :: cs) = (st.add c).addAll cs := rfl

section

variable (cs : List (Cell K))

theorem addAll_allComptionSize (st : PickState K) :
    (st.addAll cs).allComptionSize = st.allComptionSize + cellsSize cs := by
  induction cs generalizing st with
  | nil => rfl
  | cons c cs ih =>
  rw [addAll_cons, ih, cellsSize_cons]
  simp only [PickState.add]
  omega

theorem addAll_last (st : PickState K) : (st.addAll cs).last = (cs.getLast?).or st.last := by
  induction cs generalizing st with
  | nil => rfl
  | cons c cs ih =>
  rw [addAll_cons, ih, getLast?_cons]
  cases cs.getLast? <;> rfl

/-- After adding cells a row's count has grown by its number of cells. -/
theorem addAll_keysNum (i : Nat) (st : PickState K) :
    (st.addAll cs).keysNum[i]? = (st.keysNum[i]?).map
      (· + (cs.filter (fun c => c.filesIndex = i)).length) := by
  induction cs generalizing st with
  | nil => simp [PickState.addAll]
  | cons c cs ih =>
  rw [addAll_cons, ih]
  simp only [PickState.add, getElem?_modify]
  by_cases hc : c.filesIndex = i
  · rw [filter_cons_of_pos (by simpa using hc), length_cons]
    cases st.keysNum[i]? with
    | none => simp
    | some n =>
      simp [hc, Nat.add_assoc, Nat.add_comm 1]
  · rw [filter_cons_of_neg (by simpa using hc)]
    cases st.keysNum[i]? <;> simp [hc]

theorem addAll_lengths (st : PickState K) :
    (st.addAll cs).keysNum.length = st.keysNum.length ∧ (st.addAll cs).keysSize.length =
      st.keysSize.length := by
  induction cs generalizing st with
  | nil => exact ⟨rfl, rfl⟩
  | cons c cs ih =>
  rw [addAll_cons, (ih _).1, (ih _).2]
  simp [PickState.add]

end

end

/-! ## Passing the level-1 bounds -/

/-- `key` has passed the bound at position `j`: it is at or behind the start of a
    file, or behind its end. -/
def Passes (ranges : List K) (key : K) (j : Nat) : Prop :=
  ∃ r, ranges[j]? = some r ∧ (if j % 2 = 0 then r ≤ key else r < key)

variable {ranges : List K}

theorem Passes.mono {k k' : K} {j : Nat} (h : Passes ranges k j) (hk : k ≤ k') :
    Passes ranges k' j := by
  obtain ⟨r, hr, hcmp⟩ := h
  refine ⟨r, hr, ?_⟩
  split_ifs at hcmp ⊢ with hj
  · exact hcmp.trans hk
  · exact hcmp.trans_le hk

/-- How moving the index ends: it passes bounds, and stops at the first bound that is not
    passed, or, when the size is reached, at the first passed file end. -/
structure Advanced (ranges : List K) (key : K) (full : Bool) (idx idx' : Nat) (stopped : Bool) :
    Prop where
  le : idx ≤ idx'
  passes : ∀ j, idx ≤ j → j < idx' → Passes ranges key j ∧ (full = true → j % 2 = 0)
  ahead : stopped = false → ¬ Passes ranges key idx'
  fileEnd : stopped = true → full = true ∧ idx' % 2 = 1 ∧ Passes ranges key idx'

section

variable {key : K} {full stopped : Bool} {idx idx' : Nat}

theorem Advanced.below
    (h : Advanced ranges key full idx idx' stopped) (hidx : ∀ j < idx, Passes ranges key j) :
    ∀ j < idx', Passes ranges key j := by
  intro j hj
  by_cases hlt : j < idx
  · exact hidx j hlt
  · exact (h.passes j (by omega) hj).1

theorem passes_iff {r : K} {rs : List K} (hdrop : ranges.drop idx = r :: rs) :
    Passes ranges key idx ↔ if idx % 2 = 0 then r ≤ key else r < key := by
  have hget : ranges[idx]? = some r := by
    rw [← head?_drop, hdrop]
    rfl
  rw [Passes, hget]
  simp only [Option.some.injEq, exists_eq_left']

theorem Advanced.stay (hno : stopped = false → ¬ Passes ranges key idx)
    (hyes : stopped = true → full = true ∧ idx % 2 = 1 ∧ Passes ranges key idx) :
    Advanced ranges key full idx idx stopped :=
  ⟨le_rfl, fun j h1 h2 => by omega, hno, hyes⟩

theorem Advanced.pass (hpass : Passes ranges key idx) (hpar : full = true → idx % 2 = 0)
    (h : Advanced ranges key full (idx + 1) idx' stopped) :
    Advanced ranges key full idx idx' stopped := by
  have hle := h.le
  refine ⟨by omega, fun j h1 h2 => ?_, h.ahead, h.fileEnd⟩
  rcases Nat.eq_or_lt_of_le h1 with rfl | h1
  · exact ⟨hpass, hpar⟩
  · exact h.passes j h1 h2

end

theorem advanceRange_spec (ranges : List K) (key : K) (full : Bool) (rs : List K) (idx : Nat)
    (hdrop : ranges.drop idx = rs) :
    ∃ idx' stopped, advanceRange key full rs idx = (idx', stopped) ∧ Advanced ranges key full idx
      idx' stopped := by
  refine ⟨_, _, Prod.mk.eta.symm, ?_⟩
  have hrest : ∀ {idx r rs}, ranges.drop idx = r :: rs → ranges.drop (idx + 1) = rs := by
    intro idx r rs h
    rw [← tail_drop, h]
    rfl
  fun_induction advanceRange key full rs idx with
  | case1 idx =>
    refine .stay ?_ nofun
    rintro - ⟨r, hr, -⟩
    rw [getElem?_eq_none (drop_eq_nil_iff.mp hdrop)] at hr
    exact nomatch hr
  | case2 r rs idx hpar hr ih =>
    refine .pass ((passes_iff hdrop).mpr ?_) (fun _ => hpar) (ih (hrest hdrop))
    rw [if_pos hpar]
    exact hr
  | case3 r rs idx hpar hr =>
    refine .stay (fun _ => ?_) nofun
    rw [passes_iff hdrop, if_pos hpar]
    exact hr
  | case4 r rs idx hpar hr hfull =>
    refine .stay nofun fun _ => ⟨hfull, by omega, (passes_iff hdrop).mpr ?_⟩
    rw [if_neg hpar]
    exact hr
  | case5 r rs idx hpar hr hfull ih =>
    refine .pass ((passes_iff hdrop).mpr ?_) (fun h => absurd h hfull) (ih (hrest hdrop))
    rw [if_neg hpar]
    exact hr
  | case6 r rs idx hpar hr =>
    refine .stay (fun _ => ?_) nofun
    rw [passes_iff hdrop, if_neg hpar]
    exact hr

section

variable (s l : K) (ranges : List K) (k : K)

theorem passes_cons_cons (j : Nat) :
    Passes (s :: l :: ranges) k (j + 2) ↔ Passes ranges k j := by
  have hpar : (j + 2) % 2 = j % 2 := by omega
  simp only [Passes, hpar, getElem?_cons_succ]

theorem passes_zero :
    Passes (s :: l :: ranges) k 0 ↔ s ≤ k := by
  simp [Passes]

theorem passes_one : Passes (s :: l :: ranges) k 1 ↔ l < k := by
  simp [Passes]

end

end ColumnPick
