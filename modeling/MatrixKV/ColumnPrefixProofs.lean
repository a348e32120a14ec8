import MatrixKV.ColumnRowsProofs

/-! # A column without level-1 files — the shortest prefix

    Where no level-1 file overlaps the matrix, `PickColumnCompaction` goes by size
    alone.  This file says which cells it takes, without its counters:

    * `MergedOrder` — the cells still to be compacted, by user key and, among equal
      keys, by row; the rows stand as in level 0, the newest first.
    * `ShortestColumn` — the shortest non-empty prefix of the size, extended to the
      end of its last user key, or everything.
    * `columnItem` — the item of a prefix: what is counted, summed up and remembered
      is what the prefix holds. -/

namespace ColumnPrefix

open List DbFormat SstableMeta KeysMerge Overlap ColumnPick ColumnEntries ColumnRows

variable {K : Type} [LinearOrder K]

/-! ## The specification -/

/-- A key of a row that is not compacted yet. -/
def Remaining (sst : SstableMetadata K) (rows : List (FileMetaData K)) (c : Cell K) : Prop :=
  ∃ f, rows[c.filesIndex]? = some f ∧ f.firstKeyIndex ≤ c.keysIndex ∧
    (entryOf sst f).keysMeta[c.keysIndex]? = some c.keyMeta

/-- All remaining cells, in the order of user key, row and index. -/
structure MergedOrder (sst : SstableMetadata K) (rows : List (FileMetaData K))
    (cs : List (Cell K)) : Prop where
  before : cs.Pairwise Cell.Before
  mem : ∀ c, c ∈ cs ↔ Remaining sst rows c

/-- The shortest non-empty prefix of at least `stop` bytes. -/
structure Shortest (stop : Nat) (cs p : List (Cell K)) : Prop where
  nonempty : p ≠ []
  isPrefix : p <+: cs
  full : stop ≤ cellsSize p
  least : ∀ q, q ≠ [] → q <+: cs → stop ≤ cellsSize q → p.length ≤ q.length

/-- The cells of `cs` that follow `p` and still have its last user key. -/
def sameKeyBehind (p cs : List (Cell K)) : List (Cell K) :=
  (cs.drop p.length).takeWhile (fun c => p.getLast?.map Cell.userKey = some c.userKey)

/-- The shortest prefix, extended to the end of its last user key, or all cells
    when they are too small. -/
inductive ShortestColumn (stop : Nat) (cs : List (Cell K)) : List (Cell K) → Prop
  | all (h : cellsSize cs < stop) : ShortestColumn stop cs cs
  | cut (p : List (Cell K)) (h : Shortest stop cs p) :
      ShortestColumn stop cs (p ++ sameKeyBehind p cs)

omit [LinearOrder K] in
theorem cellsSize_le_of_prefix {p cs : List (Cell K)} (h : p <+: cs) :
    cellsSize p ≤ cellsSize cs := by
  obtain ⟨rest, rfl⟩ := h
  rw [cellsSize_append]
  exact Nat.le_add_right _ _

/-- The shortest column is a prefix. -/
theorem ShortestColumn.isPrefix {stop : Nat} {cs taken : List (Cell K)}
    (h : ShortestColumn stop cs taken) : taken <+: cs := by
  cases h with
  | all _ => exact prefix_rfl
  | cut p hp =>
  obtain ⟨rest, rfl⟩ := hp.isPrefix
  rw [sameKeyBehind, drop_left, prefix_append_right_inj]
  exact takeWhile_prefix _

/-- The shortest column is unique. -/
theorem ShortestColumn.unique {stop : Nat} {cs taken taken' : List (Cell K)}
    (h : ShortestColumn stop cs taken) (h' : ShortestColumn stop cs taken') : taken = taken' := by
  cases h with
  | all hsmall =>
    cases h' with
    | all _ => rfl
    | cut p hp =>
    have := hp.full
    have := cellsSize_le_of_prefix hp.isPrefix
    omega
  | cut p hp =>
  cases h' with
  | all hsmall =>
    have := hp.full
    have := cellsSize_le_of_prefix hp.isPrefix
    omega
  | cut q hq =>
  have h1 := hp.least q hq.nonempty hq.isPrefix hq.full
  have h2 := hq.least p hp.nonempty hp.isPrefix hp.full
  have hpq : p = q :=
    (prefix_of_prefix_length_le hp.isPrefix hq.isPrefix h1).eq_of_length (by omega)
  rw [hpq]

/-- The cells of row `i`. -/
def rowCells (taken : List (Cell K)) (i : Nat) : List (Cell K) :=
  taken.filter (fun c => c.filesIndex = i)

/-- The rows with a cell in `taken`, with their index. -/
def chosenRows (rows : List (FileMetaData K)) (taken : List (Cell K)) :
    List (FileMetaData K × Nat) :=
  rows.zipIdx.filter (fun p => rowCells taken p.2 ≠ [])

/-- The item that stands for the cells `taken`. -/
def columnItem (sst : SstableMetadata K) (rows : List (FileMetaData K)) (taken : List (Cell K)) :
    ColumnCompactionItem K :=
  { files := (chosenRows rows taken).map (fun p => entryOf sst p.1)
    keysNum := (chosenRows rows taken).map (fun p => (rowCells taken p.2).length)
    keysSize := (chosenRows rows taken).map (fun p => cellsSize (rowCells taken p.2))
    l0CompactionFiles := (chosenRows rows taken).map Prod.fst
    l1CompactionFiles := []
    l0Smallest := taken.head?.map (·.keyMeta.key)
    l0Largest := taken.getLast?.map (·.keyMeta.key)
    l0SelectSize := cellsSize taken }

/-! ## The loop -/

/-- The state after adding `taken`, with the key that is remembered: the last one,
    unless nothing has a size. -/
def Added (st : PickState K) (taken : List (Cell K)) (res : PickState K) : Prop :=
  ∃ x, res = { st.addAll taken with l0Largest := x } ∧
    (0 < (st.addAll taken).allComptionSize → x = (st.addAll taken).last.map (·.keyMeta.key))

theorem added_nil (stop : Nat) (st : PickState K) : Added st [] (pickNoL1 stop st []) := by
  rw [pickNoL1]
  split_ifs with hpos
  · exact ⟨_, rfl, fun _ => rfl⟩
  · exact ⟨st.l0Largest, rfl, fun h => absurd h hpos⟩

/-- With the size reached the loop takes the cells of the last user key. -/
theorem pickNoL1_full (stop : Nat) (cs : List (Cell K)) (st : PickState K) (k : K)
    (hfull : stop ≤ st.allComptionSize) (hlast : st.last.map Cell.userKey = some k) :
    Added st (cs.takeWhile (fun c => some k = some c.userKey)) (pickNoL1 stop st cs) := by
  induction cs generalizing st k with
  | nil =>
    exact added_nil stop st
  | cons c cs ih =>
  rw [pickNoL1, if_pos hfull, hlast]
  split_ifs with hk
  · rw [takeWhile_cons_of_pos (by rw [decide_eq_true_eq]; exact hk)]
    exact ih (st.add c) k (hfull.trans (Nat.le_add_right _ _)) hk.symm
  rw [takeWhile_cons_of_neg (by rw [decide_eq_true_eq]; exact hk)]
  refine ⟨_, rfl, fun _ => ?_⟩
  show st.last.map _ = st.last.map _
  rfl

/-- How far the loop goes from a state with `size` bytes and last key `k`: up to
    the size and then to the end of the user key, or to the end. -/
inductive GoesTo (stop size : Nat) (k : K) (cs : List (Cell K)) : List (Cell K) → Prop
  | all (h : size + cellsSize cs < stop) : GoesTo stop size k cs cs
  | cut (p rest : List (Cell K)) (hsplit : cs = p ++ rest)
      (hfull : stop ≤ size + cellsSize p)
      (hleast : ∀ q, q <+: p → q ≠ p → size + cellsSize q < stop) :
      GoesTo stop size k cs (p ++ rest.takeWhile
        (fun c => (p.getLast?.map Cell.userKey).or (some k) = some c.userKey))

theorem GoesTo.cons {stop size : Nat} {k : K} {c : Cell K} {cs taken : List (Cell K)}
    (hsize : size < stop) (h : GoesTo stop (size + c.keyMeta.size) c.userKey cs taken) :
    GoesTo stop size k (c :: cs) (c :: taken) := by
  cases h with
  | all h =>
    refine .all ?_
    rw [cellsSize_cons]
    omega
  | cut p rest hsplit hfull hleast =>
  have hlast : ((c :: p).getLast?.map Cell.userKey).or (some k)
      = (p.getLast?.map Cell.userKey).or (some c.userKey) := by
    rw [getLast?_cons]
    cases p.getLast? <;> rfl
  rw [← hlast]
  refine .cut (c :: p) rest (by rw [hsplit]; rfl) ?_ ?_
  · rw [cellsSize_cons]
    omega
  intro q hq hne
  cases q with
  | nil =>
    rw [cellsSize_nil]
    omega
  | cons d q =>
  obtain ⟨rfl, hqp⟩ := cons_prefix_cons.mp hq
  have := hleast q hqp (fun heq => hne (heq ▸ rfl))
  rw [cellsSize_cons]
  omega

/-- **THE LOOP**: what it adds, and the key it remembers. -/
theorem pickNoL1_goesTo (stop : Nat) (cs : List (Cell K)) (st : PickState K) (k : K)
    (hlast : st.last.map Cell.userKey = some k) :
    ∃ taken, GoesTo stop st.allComptionSize k cs taken ∧ Added st taken (pickNoL1 stop st cs) := by
  induction cs generalizing st k with
  | nil =>
    by_cases hfull : stop ≤ st.allComptionSize
    · exact ⟨_, .cut [] [] rfl hfull (fun q hq hne => absurd (prefix_nil.mp hq) hne),
        pickNoL1_full stop [] st k hfull hlast⟩
    · exact ⟨[], .all (by rw [cellsSize_nil]; omega), added_nil stop st⟩
  | cons c cs ih =>
  by_cases hfull : stop ≤ st.allComptionSize
  · exact ⟨_, .cut [] (c :: cs) rfl hfull
      (fun q hq hne => absurd (prefix_nil.mp hq) hne),
      pickNoL1_full stop (c :: cs) st k hfull hlast⟩
  obtain ⟨taken, hgo, hres⟩ := ih (st.add c) c.userKey rfl
  refine ⟨c :: taken, hgo.cons (not_le.mp hfull), ?_⟩
  rw [pickNoL1, if_neg hfull]
  exact hres

omit [LinearOrder K] in
/-- A prefix that the loop reaches from its first cell is the shortest one. -/
theorem shortest_of_least {stop : Nat} {c : Cell K} {p rest : List (Cell K)}
    (hfull : stop ≤ c.keyMeta.size + cellsSize p)
    (hleast : ∀ q, q <+: p → q ≠ p → c.keyMeta.size + cellsSize q < stop) :
    Shortest stop (c :: (p ++ rest)) (c :: p) where
  nonempty := cons_ne_nil c p
  isPrefix := ⟨rest, rfl⟩
  full := by
    rw [cellsSize_cons]
    exact hfull
  least := by
    intro q hne hq hsize
    cases q with
    | nil => exact absurd rfl hne
    | cons d q =>
    obtain ⟨rfl, hq'⟩ := cons_prefix_cons.mp hq
    by_contra hlen
    simp only [length_cons, not_le] at hlen
    -- a shorter prefix is a proper prefix of `p`
    have hqp : q <+: p :=
      prefix_of_prefix_length_le hq' (prefix_append p rest) (by omega)
    have := hleast q hqp (fun heq => by rw [heq] at hlen; omega)
    rw [cellsSize_cons] at hsize
    omega

/-- The loop from its start takes the shortest column. -/
theorem pickNoL1_start (stop n : Nat) (c : Cell K) (cs : List (Cell K)) :
    ∃ taken x, ShortestColumn stop (c :: cs) (c :: taken) ∧
      pickNoL1 stop (PickState.start n (c :: cs)) (c :: cs)
        = { (PickState.start n (c :: cs)).addAll (c :: taken) with l0Largest := x } ∧
      (0 < c.keyMeta.size → x = (c :: taken).getLast?.map (·.keyMeta.key)) := by
  -- the first cell is taken even at the size 0: it has the remembered key, its own
  have hfirst : pickNoL1 stop (PickState.start n (c :: cs)) (c :: cs)
      = pickNoL1 stop ((PickState.start n (c :: cs)).add c) cs := by
    rw [pickNoL1]
    split
    · exact if_pos rfl
    · rfl
  have hsize : ((PickState.start n (c :: cs)).add c).allComptionSize = c.keyMeta.size :=
    Nat.zero_add _
  obtain ⟨taken, hgo, x, hres, hx⟩ := pickNoL1_goesTo stop cs
    ((PickState.start n (c :: cs)).add c) c.userKey rfl
  refine ⟨taken, x, ?_, hfirst.trans hres, ?_⟩
  · rw [hsize] at hgo
    cases hgo with
    | all h => exact .all (by rw [cellsSize_cons]; exact h)
    | cut p rest hsplit hfull hleast =>
    have hcut := ShortestColumn.cut (c :: p) (@shortest_of_least K stop c p rest hfull hleast)
    have hbehind : sameKeyBehind (c :: p) (c :: (p ++ rest)) = rest.takeWhile
        (fun d => (p.getLast?.map Cell.userKey).or (some c.userKey) = some d.userKey) := by
      rw [sameKeyBehind, getLast?_cons, length_cons, drop_succ_cons, drop_left]
      cases p.getLast? <;> rfl
    rw [hsplit, ← hbehind]
    exact hcut
  · intro hpos
    have hlast : ((PickState.start n (c :: cs)).addAll (c :: taken)).last
        = (c :: taken).getLast? := by
      rw [addAll_last, getLast?_cons]
      rfl
    rw [← hlast]
    refine hx ?_
    rw [addAll_allComptionSize, hsize]
    omega

/-! ## The counters -/

section

omit [LinearOrder K]

/-- After adding cells a row's size has grown by the size of its cells. -/
theorem addAll_keysSize (cs : List (Cell K)) (i : Nat) (st : PickState K) :
    (st.addAll cs).keysSize[i]? = (st.keysSize[i]?).map (· + cellsSize (rowCells cs i)) := by
  induction cs generalizing st with
  | nil => simp [PickState.addAll, rowCells]
  | cons c cs ih =>
  rw [addAll_cons, ih]
  simp only [PickState.add, getElem?_modify, rowCells]
  by_cases hc : c.filesIndex = i
  · rw [filter_cons_of_pos (by simpa using hc), cellsSize_cons]
    cases st.keysSize[i]? with
    | none => simp
    | some n => simp [hc, Nat.add_assoc]
  · rw [filter_cons_of_neg (by simpa using hc)]
    cases st.keysSize[i]? <;> simp [hc]

/-- The counters of a pick, row by row. -/
theorem counters_start (n : Nat) (cs taken : List (Cell K)) :
    ((PickState.start n cs).addAll taken).keysNum.zip
        ((PickState.start n cs).addAll taken).keysSize
      = (List.range n).map (fun i =>
          ((rowCells taken i).length, cellsSize (rowCells taken i))) := by
  refine ext_getElem? ?_
  intro i
  rw [zip_eq_zipWith, getElem?_zipWith, addAll_keysNum, addAll_keysSize, getElem?_map]
  by_cases hi : i < n
  · simp [PickState.start, hi, rowCells]
  · simp [PickState.start, hi]

/-- The selected rows are those with a cell. -/
theorem selectedRows_start (rows : List (FileMetaData K)) (cs taken : List (Cell K))
    (x : Option (InternalKey K)) :
    selectedRows rows { (PickState.start rows.length cs).addAll taken with l0Largest := x }
      = (chosenRows rows taken).map (fun p =>
          (p.1, (rowCells taken p.2).length, cellsSize (rowCells taken p.2))) := by
  have hzip : rows.zip ((List.range rows.length).map (fun i =>
        ((rowCells taken i).length, cellsSize (rowCells taken i))))
      = rows.zipIdx.map (fun p =>
        (p.1, (rowCells taken p.2).length, cellsSize (rowCells taken p.2))) := by
    rw [zip_map_right, zipIdx_eq_zip_range', ← range_eq_range']
    rfl
  rw [selectedRows, counters_start, hzip, filter_map, chosenRows]
  congr 1
  refine filter_congr ?_
  intro p _
  simp [length_eq_zero_iff]

end

/-! ## The pick -/

section Pick

variable {sst : SstableMetadata K} {vs : VersionStorageInfo K} {rows : List (FileMetaData K)}

/-- The walk of the iterator is the merged order. -/
theorem cellsOf_merged (hwf : Level0 sst rows) : MergedOrder sst rows (cellsOf sst rows) where
  before := by
    refine cells_before (by simp) ?_
    intro e he
    obtain ⟨f, hf, rfl⟩ := mem_map.mp he
    exact sortedKeys_userKey_le (hwf.sorted f hf)
  mem := mem_cellsOf_iff

/-- The item built from the counters is the item of the cells. -/
theorem cutItem_eq_columnItem {taken : List (Cell K)}
    (hfind : ∀ f ∈ rows, vs.level0.find? (fun g => g.number = f.number) = some f) :
    cutItem sst vs rows [] (taken.head?.map (·.keyMeta.key))
        (taken.getLast?.map (·.keyMeta.key)) taken = columnItem sst rows taken := by
  have hselect : ((PickState.start rows.length (cellsOf sst rows)).addAll taken).allComptionSize
      = cellsSize taken := (addAll_allComptionSize taken _).trans (Nat.zero_add _)
  rw [cutItem, makeItem_eq hfind, selectedRows_start]
  simp only [map_map, hselect]
  rfl

/-- What a pick makes of the cells when no level-1 file overlaps the matrix. -/
theorem pick_free (opts : NvmCfOptions) (hwf : Level0 sst vs.level0)
    (hne : vs.level0 ≠ []) (hl1 : LevelSorted vs.level1)
    (hfree : ∀ f ∈ vs.level1, ¬ Touches (cellsOf sst (columnFiles sst vs.level0)) f) :
    ∃ lo cs taken x, cellsOf sst (columnFiles sst vs.level0) = lo :: cs ∧
      ShortestColumn (compactionSizeStop opts.columnCompactionNoL1SelectL0 opts.targetFileSizeBase)
        (lo :: cs) (lo :: taken) ∧
      (pickColumnCompaction opts sst vs).2 = some (cutItem sst vs (columnFiles sst vs.level0) []
        (some lo.keyMeta.key) x (lo :: taken)) ∧
      (0 < lo.keyMeta.size → x = (lo :: taken).getLast?.map (·.keyMeta.key)) := by
  obtain ⟨-, -, hrows, -⟩ := columnFiles_suffix sst hwf.nodup hne
  have hcol := Level0.columnFiles hwf
  obtain ⟨lo, cs, hlo, hfirst⟩ := exists_first hcol hrows
  obtain ⟨hi, hhi, hlast, hmax⟩ := exists_last hcol hrows
  have hover : getOverlappingInputs vs.level1 lo.keyMeta.key hi.keyMeta.key = [] := by
    rw [getOverlappingInputs_eq_filter hl1, filter_eq_nil_iff]
    intro f hf h
    exact hfree f hf ((overlaps_iff_touches hcol hlo hhi hmax f).mp (of_decide_eq_true h))
  obtain ⟨taken, x, hprefix, hres, hx⟩ := pickNoL1_start
    (compactionSizeStop opts.columnCompactionNoL1SelectL0 opts.targetFileSizeBase)
    (columnFiles sst vs.level0).length lo cs
  refine ⟨lo, cs, taken, x, hlo, hprefix, ?_, hx⟩
  have hcells : cells ((columnFiles sst vs.level0).map (entryOf sst))
      ((columnFiles sst vs.level0).map (·.firstKeyIndex)) = lo :: cs := hlo
  have hlen : ((columnFiles sst vs.level0).map (entryOf sst)).length
      = (columnFiles sst vs.level0).length := length_map ..
  rw [pickColumnCompaction_eq opts hwf hne]
  simp only [pickCells, hfirst, hlast, hover, hcells, hlen, hres]
  rw [cutItem, hlo]

/-- **THE SHORTEST COLUMN**: where no level-1 file overlaps the matrix, a pick takes
    the shortest prefix of the merged order that has the size, up to the end of its
    last user key, and its item says exactly that. -/
theorem pickColumnCompaction_shortest (opts : NvmCfOptions) (hwf : Level0 sst vs.level0)
    (hne : vs.level0 ≠ []) (hl1 : LevelSorted vs.level1)
    (hsizes : ∀ f ∈ vs.level0, ∀ m ∈ (entryOf sst f).keysMeta, 0 < m.size)
    (hfree : ∀ f ∈ vs.level1, ¬ Touches (cellsOf sst (columnFiles sst vs.level0)) f) :
    ∃ order taken, MergedOrder sst (columnFiles sst vs.level0) order ∧
      ShortestColumn (compactionSizeStop opts.columnCompactionNoL1SelectL0 opts.targetFileSizeBase)
        order taken ∧
      (pickColumnCompaction opts sst vs).2
        = some (columnItem sst (columnFiles sst vs.level0) taken) := by
  obtain ⟨lo, cs, taken, x, hlo, hprefix, hpick, hx⟩ := pick_free opts hwf hne hl1 hfree
  have hpos : 0 < lo.keyMeta.size := by
    obtain ⟨f, hf, -, hkey⟩ := (mem_cellsOf_iff lo).mp (hlo ▸ mem_cons_self)
    exact hsizes f (columnFiles_subset (mem_of_getElem? hf)) _ (mem_of_getElem? hkey)
  refine ⟨lo :: cs, lo :: taken, hlo ▸ cellsOf_merged (Level0.columnFiles hwf), hprefix, ?_⟩
  have hitem := @cutItem_eq_columnItem K _ sst vs (columnFiles sst vs.level0) (lo :: taken)
    (fun f hf => find?_number_eq hwf.nodup (columnFiles_subset hf))
  rw [hpick, hx hpos, ← hitem]
  rfl

/-- Two rows with the keys 5 and 25; the first cell reaches 30 bytes, and both
    versions of key 5 go. -/
theorem pickColumnCompaction_shortest_splitDirectory :
    ∃ order taken,
      MergedOrder splitDirectory (columnFiles splitDirectory splitVersion.level0) order ∧
      ShortestColumn 30 order taken ∧
      (pickColumnCompaction splitOptions splitDirectory
        { splitVersion with level1 := [] }).2
        = some (columnItem splitDirectory (columnFiles splitDirectory splitVersion.level0) taken) :=
  @pickColumnCompaction_shortest Nat _ splitDirectory { splitVersion with level1 := [] }
    splitOptions splitVersion_level0 (by decide) ⟨by decide, by decide⟩ (by decide)
    nofun

/-! ## The size of a column -/

/-- The cells are at most `bound` bytes, the one that reaches the bound and the remaining
    versions of its user key apart. -/
def AtMost (bound : Nat) (taken : List (Cell K)) : Prop :=
  ∃ p c behind, taken = p ++ c :: behind ∧ (∀ d ∈ behind, d.userKey = c.userKey) ∧
    cellsSize taken ≤ bound + c.keyMeta.size + cellsSize behind

/-- A shortest prefix ends with a cell, and what follows it has the key of that cell. -/
theorem Shortest.exists_last {stop : Nat} {cs p : List (Cell K)} (h : Shortest stop cs p) :
    ∃ q c, p = q ++ [c] ∧ ∀ d ∈ sameKeyBehind p cs, d.userKey = c.userKey := by
  obtain ⟨q, c, hq⟩ := (eq_nil_or_concat p).resolve_left h.nonempty
  rw [concat_eq_append] at hq
  refine ⟨q, c, hq, ?_⟩
  intro d hd
  have hkey := of_decide_eq_true (all_eq_true.mp all_takeWhile d hd)
  rw [hq, getLast?_concat] at hkey
  exact (Option.some.inj hkey).symm

/-- A column that leaves cells behind ends where its size is reached. -/
theorem ShortestColumn.atMost {stop bound : Nat} {cs taken : List (Cell K)}
    (h : ShortestColumn stop cs taken) (hmore : taken ≠ cs) (hle : stop ≤ bound) :
    AtMost bound taken := by
  cases h with
  | all _ => exact absurd rfl hmore
  | cut p hp =>
  obtain ⟨q, c, rfl, hkey⟩ := hp.exists_last
  refine ⟨q, c, sameKeyBehind (q ++ [c]) cs, by simp, hkey, ?_⟩
  -- the size was not reached before the last cell
  have hq : cellsSize q ≤ stop := by
    by_contra hlt
    have hne : q ≠ [] := by
      rintro rfl
      exact hlt (Nat.zero_le _)
    have hlen := hp.least q hne ((prefix_append q [c]).trans hp.isPrefix) (by omega)
    rw [length_append, length_singleton] at hlen
    omega
  simp only [cellsSize_append, cellsSize_cons, cellsSize_nil]
  omega

/-- The threshold is at most the files it stands for exactly when a file has more than the
    6 MB that are taken off. -/
theorem compactionSizeStop_le_iff {selectL0 : Int} (hpos : 0 < selectL0) (hint : selectL0 < 2 ^ 31)
    (target : Nat) :
    compactionSizeStop selectL0 target ≤ selectL0.toNat * target ↔ 6 * 1024 * 1024 ≤ target := by
  obtain ⟨n, rfl⟩ := Int.eq_ofNat_of_zero_le hpos.le
  rw [compactionSizeStop, Int.toNat_natCast, ← Int.natCast_mul]
  constructor
  · intro hle
    by_contra hlt
    -- the difference is negative, so the threshold is close to 2^64
    have hless : n * target ≤ n * (6 * 1024 * 1024 - 1) := Nat.mul_le_mul_left n (by omega)
    omega
  · intro hge
    have hmore : n * (6 * 1024 * 1024) ≤ n * target := Nat.mul_le_mul_left n hge
    omega

/-- Neither threshold is above its files, and no column without level-1 files goes beyond
    the first one while there is more. -/
def ThresholdsHold (K : Type) [LinearOrder K] (opts : NvmCfOptions) : Prop :=
  compactionSizeStop opts.columnCompactionNoL1SelectL0 opts.targetFileSizeBase
      ≤ opts.columnCompactionNoL1SelectL0.toNat * opts.targetFileSizeBase ∧
  compactionSizeStop opts.columnCompactionHaveL1SelectL0 opts.targetFileSizeBase
      ≤ opts.columnCompactionHaveL1SelectL0.toNat * opts.targetFileSizeBase ∧
  ∀ (sst : SstableMetadata K) (vs : VersionStorageInfo K), Level0 sst vs.level0 →
    vs.level0 ≠ [] → LevelSorted vs.level1 →
    (∀ f ∈ vs.level1, ¬ Touches (cellsOf sst (columnFiles sst vs.level0)) f) →
    ∃ order taken item, MergedOrder sst (columnFiles sst vs.level0) order ∧ taken <+: order ∧
      (pickColumnCompaction opts sst vs).2 = some item ∧ item.l0SelectSize = cellsSize taken ∧
      (taken ≠ order →
        AtMost (opts.columnCompactionNoL1SelectL0.toNat * opts.targetFileSizeBase) taken)

/-- **THE THRESHOLDS DO NOT WRAP** exactly when a file has at least 6 MB. -/
theorem thresholdsHold_iff (opts : NvmCfOptions)
    (hno : 0 < opts.columnCompactionNoL1SelectL0 ∧ opts.columnCompactionNoL1SelectL0 < 2 ^ 31)
    (hhave : 0 < opts.columnCompactionHaveL1SelectL0 ∧
      opts.columnCompactionHaveL1SelectL0 < 2 ^ 31) :
    ThresholdsHold K opts ↔ 6 * 1024 * 1024 ≤ opts.targetFileSizeBase := by
  have hstop := compactionSizeStop_le_iff hno.1 hno.2 opts.targetFileSizeBase
  refine ⟨fun h => hstop.mp h.1, fun hge => ⟨hstop.mpr hge,
    (compactionSizeStop_le_iff hhave.1 hhave.2 _).mpr hge, ?_⟩⟩
  intro sst vs hwf hne hl1 hfree
  obtain ⟨lo, cs, taken, x, hlo, hcolumn, hpick, -⟩ := pick_free opts hwf hne hl1 hfree
  refine ⟨lo :: cs, lo :: taken, _, hlo ▸ cellsOf_merged (Level0.columnFiles hwf),
    hcolumn.isPrefix, hpick, ?_, fun hmore => hcolumn.atMost hmore (hstop.mpr hge)⟩
  exact (addAll_allComptionSize (lo :: taken) _).trans (Nat.zero_add _)

/-- The defaults: four and two files of 64 MB. -/
theorem thresholdsHold_default : ThresholdsHold Nat ⟨4, 2, 64 * 1024 * 1024⟩ :=
  (thresholdsHold_iff ⟨4, 2, 64 * 1024 * 1024⟩ (by decide) (by decide)).mpr (by decide)

/-- Four files of 2 MB: the threshold is 16 MB below 2^64. -/
theorem compactionSizeStop_wraps :
    compactionSizeStop 4 (2 * 1024 * 1024) = 2 ^ 64 - 16 * 1024 * 1024 ∧
    ¬ compactionSizeStop 4 (2 * 1024 * 1024) ≤ 4 * (2 * 1024 * 1024) := by
  decide

end Pick

end ColumnPrefix
