import MatrixKV.RowMergeProofs
import MatrixKV.SstableMetaProofs

/-! # KeysMergeIterator — the matrix read in key order

    utilities/nvm_mod/keys_merge_iterator.h walks the rows of the matrix in user
    key order: one cursor per row, `-1` (here `none`) once the row is used up,
    and the row under the smallest key as the current one.

    * `drain_eq_mergeRows` — walking it to the end is the row merge of the remaining rows,
      so the cells come in key order (`cells_sorted`), each row's completely and in index
      order (`cells_row`). -/

namespace KeysMerge

open List DbFormat SstableMeta RowMerge

variable {K : Type} [LinearOrder K]

/-- What `GetCurret` and the array access behind it deliver. -/
structure Cell (K : Type) where
  filesIndex : Nat
  keysIndex : Nat
  keyMeta : KeysMetadata K
  deriving DecidableEq, Repr

def Cell.userKey (c : Cell K) : K := c.keyMeta.userKey

/-- The source keeps the cursors in an `int`, so a table is to have at most 2^31 - 1 keys. -/
structure KeysMergeIterator (K : Type) where
  files : List (FileEntry K)
  firstKeyIndexs : List Nat
  childCurrent : List (Option Nat)
  current : Option Nat

/-- The user key under a row's cursor. -/
def headKey (f : FileEntry K) (c : Option Nat) : Option K :=
  (c.bind (fun n => f.keysMeta[n]?)).map KeysMetadata.userKey

/-- The loop of `FindSmallest` over the keys under the cursors: the leftmost
    smallest one. -/
def findSmallestFrom : List (Option K) → Nat → Option (Nat × K) → Option (Nat × K)
  | [], _, best => best
  | none :: hs, i, best => findSmallestFrom hs (i + 1) best
  | some k :: hs, i, none => findSmallestFrom hs (i + 1) (some (i, k))
  | some k :: hs, i, some (j, b) =>
    if k < b then findSmallestFrom hs (i + 1) (some (i, k))
    else findSmallestFrom hs (i + 1) (some (j, b))

/-- The loop of `FindLargest` runs from the last row to the first and replaces
    the best key only by a strictly larger one. -/
def findLargestFrom : List (Option K) → Nat → Option (Nat × K)
  | [], _ => none
  | none :: hs, i => findLargestFrom hs (i + 1)
  | some k :: hs, i =>
    match findLargestFrom hs (i + 1) with
    | none => some (i, k)
    | some (j, b) => if b < k then some (i, k) else some (j, b)

def KeysMergeIterator.heads (it : KeysMergeIterator K) : List (Option K) :=
  List.zipWith headKey it.files it.childCurrent

def KeysMergeIterator.findSmallest (it : KeysMergeIterator K) : KeysMergeIterator K :=
  { it with current := (findSmallestFrom it.heads 0 none).map Prod.fst }

def KeysMergeIterator.findLargest (it : KeysMergeIterator K) : KeysMergeIterator K :=
  { it with current := (findLargestFrom it.heads 0).map Prod.fst }

/-- The constructor: every cursor at `-1`. -/
def KeysMergeIterator.create (files : List (FileEntry K)) (firstKeyIndexs : List Nat) :
    KeysMergeIterator K :=
  { files, firstKeyIndexs, childCurrent := files.map (fun _ => none), current := none }

def KeysMergeIterator.seekToFirst (it : KeysMergeIterator K) : KeysMergeIterator K :=
  { it with childCurrent := it.firstKeyIndexs.map some }.findSmallest

def KeysMergeIterator.seekToLast (it : KeysMergeIterator K) : KeysMergeIterator K :=
  { it with childCurrent := it.files.map (fun f : FileEntry K => some (f.keysNum - 1)) }.findLargest

/-- A cursor moved on by one: past the last key it becomes `-1`. -/
def stepCursor (f : FileEntry K) (c : Option Nat) : Option Nat :=
  c.bind (fun n => if n + 1 ≥ f.keysNum then none else some (n + 1))

def KeysMergeIterator.next (it : KeysMergeIterator K) : KeysMergeIterator K :=
  match it.current with
  | none => it
  | some i =>
    { it with
      childCurrent := it.childCurrent.modify i
        (fun c => (it.files[i]?).bind (fun f => stepCursor f c)) }.findSmallest

/-- `Valid` and `GetCurret` in one: the cell under the current row's cursor. -/
def KeysMergeIterator.getCurret (it : KeysMergeIterator K) : Option (Cell K) :=
  it.current.bind fun i =>
    (it.files[i]?).bind fun f =>
      (it.childCurrent[i]?).join.bind fun n =>
        (f.keysMeta[n]?).map fun m => ⟨i, n, m⟩

/-- The cells a `while (Valid()) { … Next(); }` loop visits, at most `fuel`. -/
def KeysMergeIterator.drain : Nat → KeysMergeIterator K → List (Cell K)
  | 0, _ => []
  | fuel + 1, it =>
    match it.getCurret with
    | none => []
    | some c => c :: drain fuel it.next

/-- All remaining cells of the rows, in the order the iterator visits them. -/
def cells (files : List (FileEntry K)) (firstKeyIndexs : List Nat) : List (Cell K) :=
  (KeysMergeIterator.create files firstKeyIndexs).seekToFirst.drain
    (files.map FileEntry.keysNum).sum

/-! ## The rows behind the cursors -/

/-- The remaining cells of a row: its keys from the cursor on, with their index. -/
def rowFrom (f : FileEntry K) (c : Option Nat) : List (KeysMetadata K × Nat) :=
  match c with
  | none => []
  | some n => f.keysMeta.zipIdx.drop n

def KeysMergeIterator.rows (it : KeysMergeIterator K) : List (List (KeysMetadata K × Nat)) :=
  List.zipWith rowFrom it.files it.childCurrent

def rowKey (p : KeysMetadata K × Nat) : K := p.1.userKey

def toCell (q : Nat × (KeysMetadata K × Nat)) : Cell K := ⟨q.1, q.2.2, q.2.1⟩

section

omit [LinearOrder K]

section

variable (f : FileEntry K) (c : Option Nat)

theorem rowFrom_head? :
    (rowFrom f c).head? = (c.bind (fun n => (f.keysMeta[n]?).map (fun m => (m, n)))) := by
  cases c with
  | none => rfl
  | some n => simp [rowFrom, head?_drop]

theorem headKey_eq :
    headKey f c = (rowFrom f c).head?.map rowKey := by
  rw [rowFrom_head?]
  cases c with
  | none => rfl
  | some n =>
    simp only [headKey, Option.bind_some, Option.map_map]
    rfl

/-- Moving the cursor on drops the head of the row. -/
theorem rowFrom_stepCursor :
    rowFrom f (stepCursor f c) = (rowFrom f c).tail := by
  cases c with
  | none => rfl
  | some n =>
  simp only [stepCursor, Option.bind_some]
  split_ifs with h
  · simp only [rowFrom, tail_drop]
    exact (drop_eq_nil_of_le (by rw [length_zipIdx]; exact h)).symm
  · simp only [rowFrom, tail_drop]

end

end

/-- The scan for the smallest key is the scan of the row heads. -/
theorem findSmallestFrom_eq :
    ∀ (rows : List (List (KeysMetadata K × Nat))) (i : Nat)
      (best : Option (Nat × (KeysMetadata K × Nat))),
      findSmallestFrom (rows.map (fun r => r.head?.map rowKey)) i
          (best.map (fun q => (q.1, rowKey q.2)))
        = (minHeadFrom rowKey rows i best).map (fun q => (q.1, rowKey q.2)) := by
  intro rows
  induction rows with
  | nil => intro i best; rfl
  | cons r rows ih =>
  intro i best
  cases r with
  | nil => exact ih (i + 1) best
  | cons x xs =>
  cases best with
  | none => exact ih (i + 1) (some (i, x))
  | some q =>
  simp only [map_cons, head?_cons, Option.map_some, findSmallestFrom, minHeadFrom]
  by_cases h : rowKey x < rowKey q.2
  · rw [if_pos h, if_pos h]
    exact ih (i + 1) (some (i, x))
  · rw [if_neg h, if_neg h]
    exact ih (i + 1) (some q)

omit [LinearOrder K] in
theorem heads_eq (it : KeysMergeIterator K) :
    it.heads = it.rows.map (fun r => r.head?.map rowKey) := by
  rw [KeysMergeIterator.heads, KeysMergeIterator.rows, map_zipWith]
  congr 1
  funext f c
  exact headKey_eq f c

/-- An iterator whose current row is the one `FindSmallest` chose. -/
structure Positioned (it : KeysMergeIterator K) : Prop where
  lengths : it.files.length = it.childCurrent.length
  current : it.current = (minHead rowKey it.rows).map Prod.fst

variable {it : KeysMergeIterator K}

theorem findSmallest_positioned (h : it.files.length = it.childCurrent.length) :
    Positioned it.findSmallest := by
  refine ⟨h, ?_⟩
  have heq := findSmallestFrom_eq it.rows 0 none
  rw [← heads_eq, Option.map_none] at heq
  show (findSmallestFrom it.heads 0 none).map Prod.fst = (minHead rowKey it.rows).map Prod.fst
  rw [heq, Option.map_map]
  rfl

theorem next_positioned (h : Positioned it) {i : Nat} (hi : it.current = some i) :
    Positioned it.next := by
  rw [KeysMergeIterator.next, hi]
  exact findSmallest_positioned (by simpa using h.lengths)

theorem rows_next {i : Nat} (hi : it.current = some i) : it.next.rows = advance it.rows i := by
  rw [KeysMergeIterator.next, hi]
  show List.zipWith rowFrom it.files (it.childCurrent.modify i _) = advance it.rows i
  rw [advance, KeysMergeIterator.rows]
  refine ext_getElem? ?_
  intro j
  rw [getElem?_modify, getElem?_zipWith, getElem?_zipWith, getElem?_modify]
  by_cases hij : i = j
  · subst hij
    cases hf : it.files[i]? with
    | none => simp
    | some f =>
    cases hc : it.childCurrent[i]? with
    | none => simp
    | some c => simp [rowFrom_stepCursor]
  · cases it.files[j]? <;> cases it.childCurrent[j]? <;> simp [hij]

/-- The current cell is the smallest head. -/
theorem getCurret_eq (h : Positioned it) : it.getCurret = (minHead rowKey it.rows).map toCell := by
  rw [KeysMergeIterator.getCurret, h.current]
  rcases minHead_spec rowKey it.rows with ⟨hnone, -⟩ | ⟨i, p, tl, hsome, hrow, -⟩
  · rw [hnone]
    rfl
  rw [hsome]
  simp only [Option.map_some, Option.bind_some]
  rw [KeysMergeIterator.rows, getElem?_zipWith] at hrow
  cases hf : it.files[i]? with
  | none => simp [hf] at hrow
  | some f =>
  cases hc : it.childCurrent[i]? with
  | none => simp [hf, hc] at hrow
  | some c =>
  simp only [hf, hc, Option.some.injEq] at hrow
  have hhead : (rowFrom f c).head? = some p := by rw [hrow]; rfl
  rw [rowFrom_head?] at hhead
  cases c with
  | none => exact nomatch hhead
  | some n =>
  cases hm : f.keysMeta[n]? with
  | none => simp [hm] at hhead
  | some m =>
    simp only [hm, Option.bind_some, Option.map_some, Option.some.injEq] at hhead
    simp [hm, toCell, ← hhead]

/-- **THE WALK**: draining a positioned iterator is the row merge. -/
theorem drain_eq_mergeRows :
    ∀ (fuel : Nat) (it : KeysMergeIterator K), Positioned it →
      it.drain fuel = (mergeRows rowKey fuel it.rows).map toCell := by
  intro fuel
  induction fuel with
  | zero => intro it _; rfl
  | succ fuel ih =>
  intro it h
  rw [KeysMergeIterator.drain, mergeRows, getCurret_eq h]
  have hcur := h.current
  cases hm : minHead rowKey it.rows with
  | none => rfl
  | some q =>
  rw [hm] at hcur
  simp only [Option.map_some, map_cons] at hcur ⊢
  rw [ih _ (next_positioned h hcur), rows_next hcur]

/-- Every `Next` of a walk stands on the next cell, and the last one ends it. -/
theorem drain_walk :
    ∀ (fuel : Nat) (it : KeysMergeIterator K), Positioned it → it.rows.flatten.length ≤ fuel →
      (∀ k < (it.drain fuel).length,
        (KeysMergeIterator.next^[k] it).getCurret = (it.drain fuel)[k]?) ∧
      (KeysMergeIterator.next^[(it.drain fuel).length] it).current = none := by
  intro fuel
  induction fuel with
  | zero =>
    intro it h hfuel
    refine ⟨fun k hk => absurd hk (Nat.not_lt_zero k), ?_⟩
    show it.current = none
    rw [h.current]
    rcases minHead_spec rowKey it.rows with ⟨hnone, -⟩ | ⟨i, p, tl, -, hrow, -⟩
    · rw [hnone]
      rfl
    have hp : p ∈ it.rows.flatten :=
      mem_flatten.mpr ⟨_, mem_of_getElem? hrow, .head _⟩
    exact absurd (length_pos_of_mem hp) (by omega)
  | succ fuel ih =>
  intro it h hfuel
  have hcur := h.current
  rw [KeysMergeIterator.drain, getCurret_eq h]
  rcases minHead_spec rowKey it.rows with ⟨hnone, -⟩ | ⟨i, p, tl, hsome, hrow, -⟩
  · rw [hnone] at hcur ⊢
    exact ⟨fun k hk => absurd hk (Nat.not_lt_zero k), hcur⟩
  rw [hsome] at hcur ⊢
  have hrows : it.next.rows.flatten.length ≤ fuel := by
    rw [rows_next hcur, advance_eq_set hrow]
    exact flatten_set_length_le hrow hfuel
  obtain ⟨hcells, hend⟩ := ih _ (next_positioned h hcur) hrows
  refine ⟨fun k hk => ?_, hend⟩
  cases k with
  | zero => exact (getCurret_eq h).trans (by rw [hsome]; rfl)
  | succ k => exact hcells k (Nat.lt_of_succ_lt_succ hk)

/-! ## The cells of a column -/

/-- The rows as `SeekToFirst` leaves them. -/
def startRows (files : List (FileEntry K)) (firstKeyIndexs : List Nat) :
    List (List (KeysMetadata K × Nat)) :=
  List.zipWith (fun f n => f.keysMeta.zipIdx.drop n) files firstKeyIndexs

omit [LinearOrder K] in
theorem startRows_getElem? (files : List (FileEntry K)) (firsts : List Nat) {i : Nat}
    {f : FileEntry K} {n : Nat} (hf : files[i]? = some f) (hn : firsts[i]? = some n) :
    (startRows files firsts)[i]? = some (f.keysMeta.zipIdx.drop n) := by
  rw [startRows, getElem?_zipWith, hf, hn]

theorem mem_zipIdx_drop_take_iff {α : Type} (l : List α) (n k : Nat) (m : α) (j : Nat) :
    (m, j) ∈ (l.zipIdx.drop n).take k ↔ n ≤ j ∧ j < n + k ∧ l[j]? = some m := by
  rw [mem_iff_getElem?]
  constructor
  · rintro ⟨i, hi⟩
    rw [getElem?_take] at hi
    split at hi
    · rw [getElem?_drop, getElem?_zipIdx] at hi
      obtain ⟨a, ha, hpair⟩ := Option.map_eq_some_iff.mp hi
      simp only [Nat.zero_add, Prod.mk.injEq] at hpair
      obtain ⟨rfl, rfl⟩ := hpair
      exact ⟨by omega, by omega, ha⟩
    · exact nomatch hi
  · rintro ⟨h1, h2, h3⟩
    refine ⟨j - n, ?_⟩
    rw [getElem?_take, if_pos (by omega), getElem?_drop, getElem?_zipIdx,
      Nat.add_sub_cancel' h1, h3]
    simp

theorem mem_zipIdx_drop_iff {α : Type} (l : List α) (n : Nat) (m : α) (j : Nat) :
    (m, j) ∈ l.zipIdx.drop n ↔ n ≤ j ∧ l[j]? = some m := by
  have htake : (l.zipIdx.drop n).take l.length = l.zipIdx.drop n :=
    take_of_length_le (by simp)
  rw [← htake, mem_zipIdx_drop_take_iff]
  constructor
  · rintro ⟨h1, -, h3⟩
    exact ⟨h1, h3⟩
  · rintro ⟨h1, h3⟩
    obtain ⟨hlt, -⟩ := List.getElem?_eq_some_iff.mp h3
    exact ⟨h1, by omega, h3⟩

omit [LinearOrder K] in
theorem startRows_length_le :
    ∀ (files : List (FileEntry K)) (firsts : List Nat),
      (startRows files firsts).flatten.length ≤ (files.map FileEntry.keysNum).sum := by
  intro files
  induction files with
  | nil => intro firsts; exact Nat.zero_le _
  | cons f files ih =>
  intro firsts
  cases firsts with
  | nil => exact Nat.zero_le _
  | cons n firsts =>
  have h := ih firsts
  simp only [startRows, zipWith_cons_cons, flatten_cons, length_append,
    length_drop, length_zipIdx, map_cons, sum_cons, FileEntry.keysNum] at h ⊢
  omega

section Column

variable {files : List (FileEntry K)} {firsts : List Nat}

theorem seekToFirst_positioned (hlen : files.length = firsts.length) :
    Positioned (KeysMergeIterator.create files firsts).seekToFirst :=
  findSmallest_positioned (by simpa [KeysMergeIterator.create] using hlen)

theorem rows_seekToFirst (files : List (FileEntry K)) (firsts : List Nat) :
    (KeysMergeIterator.create files firsts).seekToFirst.rows = startRows files firsts := by
  show List.zipWith rowFrom files (firsts.map some) = startRows files firsts
  rw [zipWith_map_right]
  rfl

/-- The visited cells are the row merge of the remaining rows. -/
theorem cells_eq_mergeRows (hlen : files.length = firsts.length) :
    cells files firsts = (mergeRows rowKey (files.map FileEntry.keysNum).sum
      (startRows files firsts)).map toCell := by
  rw [cells, drain_eq_mergeRows _ _ (seekToFirst_positioned hlen), rows_seekToFirst]

/-- The visited cells are a merge trace of the remaining rows. -/
theorem cells_trace (hlen : files.length = firsts.length) :
    ∃ tr, MergeTrace rowKey (startRows files firsts) tr ∧ cells files firsts = tr.map toCell :=
  ⟨_, mergeRows_trace rowKey _ _ (startRows_length_le files firsts), cells_eq_mergeRows hlen⟩

/-- Each table lists its user keys in order. -/
def RowsSorted (files : List (FileEntry K)) : Prop :=
  ∀ f ∈ files, SortedKeys (f.keysMeta.map KeysMetadata.key)

theorem sortedKeys_userKey_le {l : List (KeysMetadata K)}
    (h : SortedKeys (l.map KeysMetadata.key)) : l.Pairwise (fun a b => a.userKey ≤ b.userKey) := by
  rw [SortedKeys, pairwise_map] at h
  exact h.imp (fun hlt => userKey_le_of_rank_le hlt.le)

/-- The tables' user keys do not fall; what the walk needs of `RowsSorted`. -/
def UserKeysSorted (files : List (FileEntry K)) : Prop :=
  ∀ f ∈ files, f.keysMeta.Pairwise (fun a b => a.userKey ≤ b.userKey)

theorem RowsSorted.userKeys (hs : RowsSorted files) : UserKeysSorted files :=
  fun f hf => sortedKeys_userKey_le (hs f hf)

theorem startRows_sorted (hs : UserKeysSorted files) :
    ∀ r ∈ startRows files firsts, r.Pairwise (fun p q => rowKey p ≤ rowKey q) := by
  intro r hr
  obtain ⟨i, hi, rfl⟩ := getElem_of_mem hr
  simp only [startRows, length_zipWith] at hi
  simp only [startRows, getElem_zipWith]
  have hf := hs files[i] (getElem_mem (by omega))
  rw [← zipIdx_map_fst 0 files[i].keysMeta, pairwise_map] at hf
  exact hf.drop

/-- The cells come in user key order. -/
theorem cells_sorted (hlen : files.length = firsts.length) (hs : RowsSorted files) :
    (cells files firsts).Pairwise (fun a b => a.userKey ≤ b.userKey) := by
  obtain ⟨tr, htr, heq⟩ := cells_trace hlen
  rw [heq, pairwise_map]
  exact trace_sorted htr (startRows_sorted hs.userKeys)

/-- The order of the walk: by user key, then by row, then by index. -/
def Cell.Before (a b : Cell K) : Prop :=
  a.userKey < b.userKey ∨ a.userKey = b.userKey ∧
    (a.filesIndex < b.filesIndex ∨ a.filesIndex = b.filesIndex ∧ a.keysIndex < b.keysIndex)

/-- Each row's cells come completely and in index order. -/
theorem cells_row (files : List (FileEntry K)) (firsts : List Nat)
    (hlen : files.length = firsts.length) (i : Nat) :
    ((cells files firsts).filter (fun c => c.filesIndex = i)).map
        (fun c => (c.keyMeta, c.keysIndex)) = (startRows files firsts)[i]?.getD [] := by
  obtain ⟨tr, htr, heq⟩ := cells_trace hlen
  rw [heq, filter_map, map_map]
  exact trace_row htr i

/-- Cells of one row come by index. -/
theorem cells_index (hlen : files.length = firsts.length) :
    (cells files firsts).Pairwise
      (fun a b => a.filesIndex = b.filesIndex → a.keysIndex < b.keysIndex) := by
  rw [pairwise_iff_forall_sublist]
  intro a b hab hrow
  have hsub := hab.filter (fun c => c.filesIndex = a.filesIndex)
  rw [filter_cons_of_pos (by simp), filter_cons_of_pos (by simpa using hrow.symm)] at hsub
  have hsub := hsub.map (fun c => (c.keyMeta, c.keysIndex))
  rw [cells_row files firsts hlen] at hsub
  -- the row's own list has its indices in order
  have hinc : ((startRows files firsts)[a.filesIndex]?.getD []).Pairwise
      (fun p q => p.2 < q.2) := by
    cases hr : (startRows files firsts)[a.filesIndex]? with
    | none => exact .nil
    | some r =>
    rw [startRows, getElem?_zipWith_eq_some] at hr
    obtain ⟨f, n, -, -, rfl⟩ := hr
    have hidx : (f.keysMeta.zipIdx.map Prod.snd).Pairwise (· < ·) := by
      rw [zipIdx_map_snd]
      exact pairwise_lt_range'
    exact (pairwise_map.mp hidx).drop
  exact pairwise_iff_forall_sublist.mp hinc hsub

/-- **THE ORDER OF THE WALK**: by user key, the rows from first to last among
    equal keys. -/
theorem cells_before (hlen : files.length = firsts.length) (hs : UserKeysSorted files) :
    (cells files firsts).Pairwise Cell.Before := by
  have hleft : (cells files firsts).Pairwise (fun a b =>
      a.userKey < b.userKey ∨ a.userKey = b.userKey ∧ a.filesIndex ≤ b.filesIndex) := by
    rw [cells_eq_mergeRows hlen, pairwise_map]
    exact mergeRows_leftmost rowKey _ _ (startRows_length_le files firsts) (startRows_sorted hs)
  refine (hleft.and (cells_index hlen)).imp ?_
  rintro a b ⟨hlt | ⟨heq, hle⟩, hidx⟩
  · exact .inl hlt
  · rcases Nat.eq_or_lt_of_le hle with h | h
    · exact .inr ⟨heq, .inr ⟨h, hidx h⟩⟩
    · exact .inr ⟨heq, .inl h⟩

omit [LinearOrder K] in
/-- Membership of a cell, read off the cells of its row. -/
theorem mem_iff_mem_row {l : List (Cell K)} (c : Cell K) :
    c ∈ l ↔ (c.keyMeta, c.keysIndex) ∈
      (l.filter (fun d => d.filesIndex = c.filesIndex)).map
        (fun d => (d.keyMeta, d.keysIndex)) := by
  rw [mem_map]
  constructor
  · intro h
    exact ⟨c, mem_filter.mpr ⟨h, by simp⟩, rfl⟩
  rintro ⟨d, hd, hpair⟩
  obtain ⟨hd, hidx⟩ := mem_filter.mp hd
  have hcd : d = c := by
    cases c
    cases d
    simp_all
  exact hcd ▸ hd

/-- A cell is visited exactly when it is a remaining key of its row. -/
theorem mem_cells_iff (hlen : files.length = firsts.length) (c : Cell K) :
    c ∈ cells files firsts ↔
      ∃ f n, files[c.filesIndex]? = some f ∧ firsts[c.filesIndex]? = some n ∧
        n ≤ c.keysIndex ∧ f.keysMeta[c.keysIndex]? = some c.keyMeta := by
  rw [mem_iff_mem_row, cells_row files firsts hlen]
  by_cases hi : c.filesIndex < files.length
  · obtain ⟨f, hf⟩ : ∃ f, files[c.filesIndex]? = some f :=
      ⟨_, getElem?_eq_getElem hi⟩
    obtain ⟨n, hn⟩ : ∃ n, firsts[c.filesIndex]? = some n :=
      ⟨_, getElem?_eq_getElem (hlen ▸ hi)⟩
    rw [startRows_getElem? files firsts hf hn, Option.getD_some, mem_zipIdx_drop_iff]
    constructor
    · rintro ⟨hle, hkey⟩
      exact ⟨f, n, hf, hn, hle, hkey⟩
    rintro ⟨f', n', hf', hn', hle, hkey⟩
    rw [hf, Option.some.injEq] at hf'
    rw [hn, Option.some.injEq] at hn'
    subst hf' hn'
    exact ⟨hle, hkey⟩
  · have hnone : files[c.filesIndex]? = none := getElem?_eq_none (by omega)
    rw [startRows, getElem?_zipWith, hnone]
    simp

/-- The cells of one row in an initial segment of the walk are the first cells
    of that row. -/
theorem mem_take_cells_iff (hlen : files.length = firsts.length)
    {taken left : List (Cell K)} (hsplit : cells files firsts = taken ++ left)
    {c : Cell K} (hc : c ∈ cells files firsts) {n : Nat}
    (hn : firsts[c.filesIndex]? = some n) :
    c ∈ taken ↔ c.keysIndex < n + (taken.filter (fun d => d.filesIndex = c.filesIndex)).length := by
  obtain ⟨f, n', hf, hn', hle, hkey⟩ := (mem_cells_iff hlen c).mp hc
  rw [hn, Option.some.injEq] at hn'
  subst hn'
  have hrow := cells_row files firsts hlen c.filesIndex
  rw [startRows_getElem? files firsts hf hn, Option.getD_some, hsplit, filter_append,
    map_append] at hrow
  have htake := congrArg (List.take (taken.filter
    (fun d => d.filesIndex = c.filesIndex)).length) hrow
  rw [take_append_of_le_length (by simp), take_of_length_le (by simp)] at htake
  rw [mem_iff_mem_row, htake, mem_zipIdx_drop_take_iff]
  exact ⟨fun h => h.2.1, fun h => ⟨hle, h, hkey⟩⟩

/-- With a key in some row, `SeekToFirst` stands on the first cell. -/
theorem seekToFirst_getCurret (hpos : 0 < (files.map FileEntry.keysNum).sum) :
    (KeysMergeIterator.create files firsts).seekToFirst.getCurret = (cells files firsts).head? := by
  obtain ⟨fuel, hfuel⟩ := Nat.exists_eq_succ_of_ne_zero (Nat.pos_iff_ne_zero.mp hpos)
  rw [cells, hfuel, Nat.succ_eq_add_one, KeysMergeIterator.drain]
  cases (KeysMergeIterator.create files firsts).seekToFirst.getCurret <;> rfl

end Column

/-! ## The last key -/

/-- The scan for the largest key finds one that no other key is above. -/
theorem findLargestFrom_spec (hs : List (Option K)) (i : Nat) :
    (findLargestFrom hs i = none ∧ ∀ h ∈ hs, h = none) ∨
    ∃ m k, findLargestFrom hs i = some (i + m, k) ∧ hs[m]? = some (some k) ∧
      ∀ h ∈ hs, ∀ k' ∈ h, k' ≤ k := by
  have hself : ∀ k : K, ∀ k' ∈ some k, k' ≤ k := fun k k' hk => (Option.mem_some.mp hk).ge
  induction hs generalizing i with
  | nil => exact .inl ⟨rfl, nofun⟩
  | cons h hs ih =>
  rcases ih (i + 1) with ⟨hnone, hall⟩ | ⟨m, k, hsome, hget, hmax⟩
  · cases h with
    | none => exact .inl ⟨hnone, forall_mem_cons.mpr ⟨rfl, hall⟩⟩
    | some k =>
    refine .inr ⟨0, k, by rw [findLargestFrom, hnone]; rfl, rfl,
      forall_mem_cons.mpr ⟨hself k, fun h hh => ?_⟩⟩
    rw [hall h hh]
    nofun
  have hm : i + 1 + m = i + (m + 1) := by omega
  cases h with
  | none =>
    exact .inr ⟨m + 1, k, by rw [findLargestFrom, hsome, hm], hget,
      forall_mem_cons.mpr ⟨nofun, hmax⟩⟩
  | some x =>
  by_cases hlt : k < x
  · exact .inr ⟨0, x, by simp [findLargestFrom, hsome, hlt], rfl, forall_mem_cons.mpr
      ⟨hself x, fun h hh k' hk' => ((hmax h hh k' hk').trans_lt hlt).le⟩⟩
  · exact .inr ⟨m + 1, k, by simp only [findLargestFrom, hsome, if_neg hlt, hm], hget,
      forall_mem_cons.mpr ⟨fun k' hk' => (hself x k' hk').trans (not_lt.mp hlt), hmax⟩⟩

/-- Over non-empty rows `SeekToLast` stands on the last key of some row, and no
    row ends above it. -/
theorem seekToLast_getCurret (files : List (FileEntry K)) (firsts : List Nat)
    (hne : files ≠ []) (hpos : ∀ f ∈ files, 0 < f.keysNum) :
    ∃ c f, (KeysMergeIterator.create files firsts).seekToLast.getCurret = some c ∧
      files[c.filesIndex]? = some f ∧ c.keysIndex = f.keysNum - 1 ∧
      f.keysMeta[c.keysIndex]? = some c.keyMeta ∧
      ∀ g ∈ files, ∀ m ∈ g.keysMeta.getLast?, m.userKey ≤ c.userKey := by
  let it : KeysMergeIterator K :=
    { KeysMergeIterator.create files firsts with
      childCurrent := files.map (fun f => some (f.keysNum - 1)) }
  have hheads : it.heads = files.map (fun f => f.keysMeta.getLast?.map KeysMetadata.userKey) := by
    show List.zipWith headKey files (files.map _) = _
    rw [zipWith_map_right, zipWith_self]
    refine map_congr_left ?_
    intro f _
    rw [headKey, Option.bind_some, getLast?_eq_getElem?]
    rfl
  rcases findLargestFrom_spec it.heads 0 with ⟨-, hall⟩ | ⟨m, k, hsome, hget, hmax⟩
  · -- some row has a last key
    obtain ⟨f, fs, rfl⟩ := exists_cons_of_ne_nil hne
    have hlast := hall _ (by rw [hheads]; exact .head _)
    have hempty : f.keysMeta = [] := by simpa using hlast
    have := hpos f (.head _)
    rw [FileEntry.keysNum, hempty] at this
    exact absurd this (lt_irrefl 0)
  rw [hheads, getElem?_map] at hget
  obtain ⟨f, hf, hk⟩ := Option.map_eq_some_iff.mp hget
  obtain ⟨y, hy, rfl⟩ := Option.map_eq_some_iff.mp hk
  rw [getLast?_eq_getElem?] at hy
  refine ⟨⟨m, f.keysNum - 1, y⟩, f, ?_, hf, rfl, hy, ?_⟩
  · show it.findLargest.getCurret = _
    rw [KeysMergeIterator.getCurret]
    simp only [KeysMergeIterator.findLargest, hsome, Option.map_some, Nat.zero_add,
      Option.bind_some]
    show (files[m]?).bind _ = _
    rw [hf, Option.bind_some]
    show ((files.map (fun f => some (f.keysNum - 1)))[m]?).join.bind _ = _
    rw [getElem?_map, hf, Option.map_some, Option.join_some, Option.bind_some]
    rw [FileEntry.keysNum, hy]
    rfl
  · intro g hg z hz
    refine hmax (some z.userKey) ?_ _ rfl
    rw [hheads, mem_map]
    exact ⟨g, hg, by rw [Option.mem_def.mp hz]; rfl⟩

/-- No key of a sorted table is above its last one. -/
theorem userKey_le_getLast {l : List (KeysMetadata K)}
    (h : l.Pairwise (fun a b => a.userKey ≤ b.userKey)) {m : KeysMetadata K} (hm : m ∈ l) :
    ∃ z ∈ l.getLast?, m.userKey ≤ z.userKey := by
  obtain ⟨init, z, rfl⟩ := eq_nil_or_concat' l |>.resolve_left (ne_nil_of_mem hm)
  refine ⟨z, getLast?_concat, ?_⟩
  rcases mem_append.mp hm with hinit | hz
  · exact (pairwise_append.mp h).2.2 m hinit z (.head _)
  · rw [mem_singleton.mp hz]

/-- **THE ITERATOR ENUMERATES THE MERGED ROWS**: over sorted rows with a start inside each,
    `SeekToFirst` and `Next` until `Valid` fails stand on the cells from the starts on, each
    once and in order, and `SeekToLast` stands on a largest user key. -/
theorem keysMergeIterator_walk (files : List (FileEntry K)) (firsts : List Nat)
    (hlen : files.length = firsts.length)
    (hsorted : ∀ f ∈ files, f.keysMeta.Pairwise (fun a b => a.key.rank ≤ b.key.rank))
    (hfirst : ∀ (i : Nat) (f : FileEntry K) n,
      files[i]? = some f → firsts[i]? = some n → n < f.keysNum) :
    let it := KeysMergeIterator.create files firsts
    ∃ walk : List (Cell K),
      (∀ k < walk.length, (KeysMergeIterator.next^[k] it.seekToFirst).getCurret = walk[k]?) ∧
      (KeysMergeIterator.next^[walk.length] it.seekToFirst).current = none ∧
      walk.Pairwise Cell.Before ∧ walk.Nodup ∧
      (∀ c, c ∈ walk ↔ ∃ f n, files[c.filesIndex]? = some f ∧ firsts[c.filesIndex]? = some n ∧
        n ≤ c.keysIndex ∧ f.keysMeta[c.keysIndex]? = some c.keyMeta) ∧
      (files ≠ [] → ∃ c ∈ walk, it.seekToLast.getCurret = some c ∧
        ∀ f ∈ files, ∀ m ∈ f.keysMeta, m.userKey ≤ c.userKey) := by
  intro it
  have hs : UserKeysSorted files :=
    fun f hf => (hsorted f hf).imp fun hle => userKey_le_of_rank_le hle
  have hwalk := drain_walk _ _ (seekToFirst_positioned hlen)
    ((rows_seekToFirst files firsts).symm ▸ startRows_length_le files firsts)
  have hbefore := cells_before hlen hs
  refine ⟨cells files firsts, hwalk.1, hwalk.2, hbefore, ?_, mem_cells_iff hlen, ?_⟩
  · refine hbefore.imp ?_
    rintro a b (hlt | ⟨-, hlt | ⟨-, hlt⟩⟩) rfl
    · exact lt_irrefl _ hlt
    · exact lt_irrefl _ hlt
    · exact lt_irrefl _ hlt
  intro hne
  have hpos : ∀ f ∈ files, 0 < f.keysNum := by
    intro f hf
    obtain ⟨i, hi, rfl⟩ := getElem_of_mem hf
    exact (Nat.zero_le _).trans_lt (hfirst i _ _ (getElem?_eq_getElem hi)
      (getElem?_eq_getElem (hlen ▸ hi)))
  obtain ⟨c, f, hc, hf, hidx, hkey, hmax⟩ := seekToLast_getCurret files firsts hne hpos
  have hi := hlen ▸ (List.getElem?_eq_some_iff.mp hf).1
  have hn := getElem?_eq_getElem hi
  have hle := hfirst _ f _ hf hn
  refine ⟨c, (mem_cells_iff hlen c).mpr ⟨f, _, hf, hn, by omega, hkey⟩, hc, ?_⟩
  intro g hg m hm
  obtain ⟨z, hz, hmz⟩ := userKey_le_getLast (hs g hg) hm
  exact hmz.trans (hmax g hg z hz)

/-- Two rows with a common user key; the second starts at its second key. -/
theorem keysMergeIterator_walk_twoRows :
    ∃ walk : List (Cell Nat), ⟨0, 0, ⟨⟨3, 9, .value⟩, -1, 0, 9⟩⟩ ∈ walk ∧
      ⟨1, 1, ⟨⟨3, 4, .value⟩, -1, 9, 9⟩⟩ ∈ walk ∧ walk.Pairwise Cell.Before := by
  obtain ⟨walk, -, -, hbefore, -, hmem, -⟩ := keysMergeIterator_walk (K := Nat)
    [⟨2, 1, [⟨⟨3, 9, .value⟩, -1, 0, 9⟩], 0⟩,
      ⟨1, 0, [⟨⟨1, 5, .value⟩, -1, 0, 9⟩, ⟨⟨3, 4, .value⟩, -1, 9, 9⟩], 0⟩] [0, 1] rfl
    (by decide) (by
      intro i f n hf hn
      match i, hf, hn with
      | 0, rfl, rfl => decide
      | 1, rfl, rfl => decide)
  exact ⟨walk, (hmem _).mpr ⟨_, _, rfl, rfl, by decide, rfl⟩,
    (hmem _).mpr ⟨_, _, rfl, rfl, by decide, rfl⟩, hbefore⟩

end KeysMerge
