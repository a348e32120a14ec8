import MatrixKV.BisectProofs
import MatrixKV.PersistentSstableProofs
import MatrixKV.KeysMergeProofs

/-! # Point reads of the matrix — NvmCfModule::Get

    A read searches the tables from newest to oldest.  In each table it bisects
    the remaining keys; the place where a search ended in one table is carried
    over the pointers `next` of the two neighbouring keys and narrows the search
    in the next table, if that table is the one the pointers belong to.

    * `LinkOK e o` says what the pointers of `e` promise about the table `o`.
    * **`getLoop_spec`**: with sound pointers the hinted search finds the key in
      the first table that holds it. -/

namespace NvmGet

open List DbFormat SstableMeta Bisect FixedCoding PersistentSstable

variable {K : Type} [LinearOrder K]

/-- A table with its `first_key_index` in the version that is read. -/
structure Row (K : Type) where
  file : FileEntry K
  first : Nat
  deriving DecidableEq, Repr

/-! ## The search -/

/-- `UserKeyCompareRange`: below, above or inside `[start, end]`. -/
def userKeyCompareRange (k start fin : K) : Ordering :=
  if k < start then .lt else if fin < k then .gt else .eq

/-- The comparison of the bisection at one index. -/
def keyProbe (file : FileEntry K) (k : K) (i : Nat) : Ordering :=
  match file.keysMeta[i]? with
  | none => .gt
  | some m => cmp m.userKey k

/-- A hint counts when it is an index of the remaining keys. -/
def inRange (file : FileEntry K) (first : Nat) (hint : Int) : Prop :=
  (first : Int) ≤ hint ∧ hint < file.keysNum

instance (file : FileEntry K) (first : Nat) (hint : Int) : Decidable (inRange file first hint) :=
  inferInstanceAs (Decidable (_ ∧ _))

/-- `BinarySearchInFile`: the index found, with `pre_left` and `pre_right` as the
    search leaves them. -/
def binarySearchInFile (file : FileEntry K) (first : Nat) (k : K) (preLeft preRight : Int) :
    Option Nat × Int × Int :=
  let left : Int := if inRange file first preLeft then preLeft else first
  let right : Int := if inRange file first preRight then preRight else (file.keysNum : Int) - 1
  match bisect (keyProbe file k) file.keysNum left right with
  | (some m, _, _) => (some m, preLeft, preRight)
  | (none, l, r) => (none, r, l)

/-- The pointer of the key at an index; only indices of the table are read. -/
def nextAt (file : FileEntry K) (i : Int) : Int :=
  match file.keysMeta[i.toNat]? with
  | none => -1
  | some m => m.next

/-- The loop of `Get` over the tables, newest first. -/
def getLoop (k : K) : List (Row K) → Int → Int → Nat → Option (FileEntry K × Nat)
  | [], _, _, _ => none
  | ⟨file, first⟩ :: rows, preLeft, preRight, nextFileNum =>
    -- pointers of another table's neighbour are of no use here
    let preLeft := if nextFileNum ≠ file.filenum then -1 else preLeft
    let preRight := if nextFileNum ≠ file.filenum then -1 else preRight
    match file.keysMeta[first]?, file.keysMeta[file.keysNum - 1]? with
    | some lo, some hi =>
      match userKeyCompareRange k lo.userKey hi.userKey with
      | .eq =>
        match binarySearchInFile file first k preLeft preRight with
        | (some m, _, _) => some (file, m)
        | (none, l, r) =>
          getLoop k rows
            (if inRange file first l then nextAt file l - 1 else l)
            (if inRange file first r then nextAt file r else r)
            file.keyPointFilenum
      | .lt => getLoop k rows (-1) (nextAt file first) file.keyPointFilenum
      | .gt =>
        getLoop k rows (nextAt file ((file.keysNum : Int) - 1) - 1) (-1)
          file.keyPointFilenum
    -- no remaining key: the source would read past the array
    | _, _ => getLoop k rows (-1) (-1) 0

/-- The tables of a version as the search sees them. -/
def versionRows (sst : SstableMetadata K) (l0 : List (FileMetaData K)) : List (Row K) :=
  List.zipWith Row.mk (sst.getL0Files l0) (l0.map (·.firstKeyIndex))

/-- The search of `Get`: the table and index it ends at. -/
def getSearch (sst : SstableMetadata K) (l0 : List (FileMetaData K)) (k : K) :
    Option (FileEntry K × Nat) :=
  getLoop k (versionRows sst l0) (-1) (-1) 0

/-- `GetValueInFile`: the value of the record the key metadata points at. -/
def getValueInFile (pool : Pool) (file : FileEntry K) (m : KeysMetadata K) : List UInt8 :=
  let addr := pool.getIndexPtr file.sstableIndex + m.offset
  let keySize := decodeFixed (readBytes pool.raw addr 8)
  let valueSize := decodeFixed (readBytes pool.raw (addr + 8 + keySize) 8)
  readBytes pool.raw (addr + 8 + keySize + 8) valueSize

/-- `NvmCfModule::Get`: the value, or nothing when no table holds the key. -/
def get (pool : Pool) (sst : SstableMetadata K) (l0 : List (FileMetaData K)) (k : K) :
    Option (List UInt8) :=
  (getSearch sst l0 k).bind fun hit =>
    (hit.1.keysMeta[hit.2]?).map (getValueInFile pool hit.1)

/-- The search without hints: every table is bisected over all its remaining
    keys, newest first. -/
def fullSearch (k : K) : List (Row K) → Option (FileEntry K × Nat)
  | [] => none
  | ⟨file, first⟩ :: rows =>
    match (binarySearchInFile file first k (-1) (-1)).1 with
    | some m => some (file, m)
    | none => fullSearch k rows

/-! ## What a table holds -/

/-- The row has `k` at the index `i` of its remaining keys. -/
def HoldsAt (r : Row K) (k : K) (i : Nat) : Prop :=
  r.first ≤ i ∧ ∃ m, r.file.keysMeta[i]? = some m ∧ m.userKey = k

/-- The row has `k` among its remaining keys. -/
def Holds (r : Row K) (k : K) : Prop := ∃ i, HoldsAt r k i

/-- A table with a key left to read and its keys in order. -/
structure RowOK (r : Row K) : Prop where
  sorted : SortedKeys (r.file.keysMeta.map KeysMetadata.key)
  remaining : r.first < r.file.keysNum

/-- Hints that may be used in a table: everything up to `preLeft` is below `k`,
    and everything from `preRight` on is above `k`. -/
structure HintOK (o : FileEntry K) (k : K) (preLeft preRight : Int) : Prop where
  left : ∀ (i : Nat) x, (i : Int) ≤ preLeft → o.keysMeta[i]? = some x → x.userKey < k
  right : ∀ (i : Nat) x, 0 ≤ preRight → preRight ≤ i → o.keysMeta[i]? = some x → k < x.userKey

variable {i : Nat}

omit [LinearOrder K] in
theorem exists_key {e : FileEntry K} (h : i < e.keysNum) : ∃ x, e.keysMeta[i]? = some x :=
  ⟨_, getElem?_eq_getElem h⟩

/-- No hints are good hints. -/
theorem hintOK_none (o : FileEntry K) (k : K) : HintOK o k (-1) (-1) := by
  constructor
  · intro i x h
    omega
  · intro i x h
    omega

/-! ## One table -/

variable {preLeft preRight : Int}

section Table

variable {r : Row K} {k : K}

theorem userKey_mono (h : RowOK r) {j : Nat} {x y : KeysMetadata K} (hij : i ≤ j)
    (hx : r.file.keysMeta[i]? = some x) (hy : r.file.keysMeta[j]? = some y) :
    x.userKey ≤ y.userKey := by
  obtain ⟨hi, rfl⟩ := List.getElem?_eq_some_iff.mp hx
  obtain ⟨hj, rfl⟩ := List.getElem?_eq_some_iff.mp hy
  rcases Nat.eq_or_lt_of_le hij with heq | hlt
  · subst heq
    exact le_rfl
  · exact pairwise_iff_getElem.mp (KeysMerge.sortedKeys_userKey_le h.sorted) i j hi hj hlt

theorem keyProbe_lt_iff (i : Nat) :
    keyProbe r.file k i = .lt ↔ ∃ m, r.file.keysMeta[i]? = some m ∧ m.userKey < k := by
  cases h : r.file.keysMeta[i]? with
  | none => simp [keyProbe, h]
  | some m => simp [keyProbe, h]

theorem keyProbe_eq_iff (i : Nat) :
    keyProbe r.file k i = .eq ↔ ∃ m, r.file.keysMeta[i]? = some m ∧ m.userKey = k := by
  cases h : r.file.keysMeta[i]? with
  | none => simp [keyProbe, h]
  | some m => simp [keyProbe, h]

theorem keyProbe_gt_iff (i : Nat) :
    keyProbe r.file k i = .gt ↔ ∀ m, r.file.keysMeta[i]? = some m → k < m.userKey := by
  cases h : r.file.keysMeta[i]? with
  | none => simp [keyProbe, h]
  | some m => simp [keyProbe, h]

theorem keyProbe_ordered (h : RowOK r) (lo hi : Int) : Ordered (keyProbe r.file k) lo hi := by
  constructor
  · intro i j _ hij _ hj
    obtain ⟨y, hy, hyk⟩ := (keyProbe_lt_iff j).mp hj
    have hjlt := (List.getElem?_eq_some_iff.mp hy).1
    have hx : r.file.keysMeta[i]? = some r.file.keysMeta[i] := getElem?_eq_getElem (by omega)
    exact (keyProbe_lt_iff i).mpr ⟨_, hx, (userKey_mono h hij hx hy).trans_lt hyk⟩
  intro i j _ hij _ hi
  refine (keyProbe_gt_iff j).mpr ?_
  intro y hy
  have hjlt := (List.getElem?_eq_some_iff.mp hy).1
  have hx : r.file.keysMeta[i]? = some r.file.keysMeta[i] := getElem?_eq_getElem (by omega)
  exact ((keyProbe_gt_iff i).mp hi _ hx).trans_le (userKey_mono h hij hx hy)

/-- The interval the search starts from. -/
def startInterval (r : Row K) (preLeft preRight : Int) : Int × Int :=
  (if inRange r.file r.first preLeft then preLeft else r.first,
   if inRange r.file r.first preRight then preRight else (r.file.keysNum : Int) - 1)

omit [LinearOrder K] in
theorem startInterval_bounds (preLeft preRight : Int) :
    (r.first : Int) ≤ (startInterval r preLeft preRight).1 ∧
      (startInterval r preLeft preRight).2 < r.file.keysNum := by
  simp only [startInterval]
  constructor
  · split_ifs with h
    · exact h.1
    · rfl
  split_ifs with h
  · exact h.2
  · omega

theorem binarySearchInFile_eq (r : Row K) (k : K) (preLeft preRight : Int) :
    binarySearchInFile r.file r.first k preLeft preRight
      = match bisect (keyProbe r.file k) r.file.keysNum (startInterval r preLeft preRight).1
          (startInterval r preLeft preRight).2 with
        | (some m, _, _) => (some m, preLeft, preRight)
        | (none, a, b) => (none, b, a) := rfl

theorem binarySearchInFile_fst (r : Row K) (k : K) (preLeft preRight : Int) :
    (binarySearchInFile r.file r.first k preLeft preRight).1
      = (bisect (keyProbe r.file k) r.file.keysNum (startInterval r preLeft preRight).1
          (startInterval r preLeft preRight).2).1 := by
  rw [binarySearchInFile_eq]
  split <;> rename_i heq <;> rw [heq]

/-- A hit is the key, at an index of the remaining keys. -/
theorem binarySearchInFile_hit {m : Nat}
    (h : (binarySearchInFile r.file r.first k preLeft preRight).1 = some m) : HoldsAt r k m := by
  obtain ⟨hlo, -⟩ := startInterval_bounds (r := r) preLeft preRight
  rw [binarySearchInFile_fst] at h
  obtain ⟨h1, -, heq⟩ := bisect_hit _ _ _ _ m (by omega) h
  exact ⟨by omega, (keyProbe_eq_iff m).mp heq⟩

/-- With good hints a key that is there is found. -/
theorem binarySearchInFile_complete (hok : RowOK r) (hint : HintOK r.file k preLeft preRight)
    (h : Holds r k) : ∃ m, (binarySearchInFile r.file r.first k preLeft preRight).1 = some m := by
  obtain ⟨i, hfirst, x, hx, hxk⟩ := h
  obtain ⟨hlo, hhi⟩ := startInterval_bounds (r := r) preLeft preRight
  have hilt : i < r.file.keysNum := (List.getElem?_eq_some_iff.mp hx).1
  rw [binarySearchInFile_fst]
  refine bisect_complete _ (by omega) (by omega) (keyProbe_ordered hok _ _) ?_ ?_
    ((keyProbe_eq_iff i).mpr ⟨x, hx, hxk⟩)
  · simp only [startInterval]
    split_ifs with hin
    · by_contra hcon
      exact absurd hxk (ne_of_lt (hint.left i x (by omega) hx))
    · omega
  · simp only [startInterval]
    split_ifs with hin
    · by_contra hcon
      have h0 : 0 ≤ preRight := by
        have := hin.1
        omega
      exact absurd hxk.symm (ne_of_lt (hint.right i x h0 (by omega) hx))
    · omega

/-- **A MISS INSIDE THE RANGE** ends between two remaining keys, the left one
    below `k` and the right one above it. -/
theorem binarySearchInFile_miss (hok : RowOK r) (hint : HintOK r.file k preLeft preRight)
    {lo hi : KeysMetadata K} (hlo : r.file.keysMeta[r.first]? = some lo) (hlok : lo.userKey < k)
    (hhi : r.file.keysMeta[r.file.keysNum - 1]? = some hi) (hhik : k < hi.userKey)
    (hnone : (binarySearchInFile r.file r.first k preLeft preRight).1 = none) :
    ∃ (i : Nat) (x y : KeysMetadata K),
      binarySearchInFile r.file r.first k preLeft preRight = (none, (i : Int), (i : Int) + 1) ∧
      r.first ≤ i ∧ r.file.keysMeta[i]? = some x ∧ x.userKey < k ∧
      r.file.keysMeta[i + 1]? = some y ∧ k < y.userKey := by
  obtain ⟨hb1, hb2⟩ := startInterval_bounds (r := r) preLeft preRight
  have hrem := hok.remaining
  -- the ends of the interval are keys below and above `k`
  obtain ⟨a, ha, hak⟩ : ∃ a : Nat, (a : Int) = (startInterval r preLeft preRight).1 ∧
      keyProbe r.file k a = .lt := by
    by_cases hin : inRange r.file r.first preLeft
    · have hin1 := hin.1
      have hin2 := hin.2
      refine ⟨preLeft.toNat, ?_, (keyProbe_lt_iff _).mpr ?_⟩
      · simp only [startInterval, if_pos hin]
        omega
      · obtain ⟨x, hx⟩ := exists_key (e := r.file) (show preLeft.toNat < r.file.keysNum by omega)
        exact ⟨x, hx, hint.left _ x (by omega) hx⟩
    · exact ⟨r.first, by simp only [startInterval, if_neg hin],
        (keyProbe_lt_iff _).mpr ⟨lo, hlo, hlok⟩⟩
  obtain ⟨b, hb, hbk⟩ : ∃ b : Nat, (b : Int) = (startInterval r preLeft preRight).2 ∧
      keyProbe r.file k b = .gt := by
    by_cases hin : inRange r.file r.first preRight
    · have hin1 := hin.1
      refine ⟨preRight.toNat, ?_, (keyProbe_gt_iff _).mpr ?_⟩
      · simp only [startInterval, if_pos hin]
        omega
      · intro x hx
        exact hint.right _ x (by omega) (by omega) hx
    · refine ⟨r.file.keysNum - 1, ?_, (keyProbe_gt_iff _).mpr ?_⟩
      · simp only [startInterval, if_neg hin]
        omega
      · intro x hx
        rw [hhi, Option.some.injEq] at hx
        exact hx ▸ hhik
  have hab : a < b := by
    by_contra hcon
    have := (keyProbe_ordered (k := k) hok 0 a).gt_of_gt b a (by omega) (by omega) (by omega) hbk
    rw [hak] at this
    exact nomatch this
  rw [binarySearchInFile_fst] at hnone
  obtain ⟨l, hres, hl1, hl2, hlt, hgt⟩ := bisect_miss (keyProbe r.file k) _ _ _ (by omega)
    (by omega) (by omega) (keyProbe_ordered hok _ _) hnone
  have hla : (a : Int) < l := by
    by_contra hcon
    rw [hgt a (by omega) (by omega)] at hak
    exact nomatch hak
  have hlb : l ≤ b := by
    by_contra hcon
    rw [hlt b (by omega) (by omega)] at hbk
    exact nomatch hbk
  obtain ⟨i, hi⟩ : ∃ i : Nat, (i : Int) + 1 = l := ⟨(l - 1).toNat, by omega⟩
  obtain ⟨x, hx, hxk⟩ := (keyProbe_lt_iff (r := r) i).mp (hlt i (by omega) (by omega))
  obtain ⟨y, hy⟩ := exists_key (e := r.file) (show i + 1 < r.file.keysNum by omega)
  refine ⟨i, x, y, ?_, by omega, hx, hxk, hy,
    (keyProbe_gt_iff (i + 1)).mp (hgt (i + 1) (by omega) (by omega)) y hy⟩
  rw [binarySearchInFile_eq]
  split
  · rename_i m _ _ heq
    rw [heq] at hnone
    exact nomatch hnone
  rename_i c d heq
  rw [heq] at hres
  obtain ⟨h1, h2⟩ := Prod.mk.inj hres
  simp only [Prod.mk.injEq, true_and]
  omega

end Table

/-! ## From one table to the next -/

section Link

variable {e o : FileEntry K} {k : K}

omit [LinearOrder K] in
theorem nextAt_of_getElem? {m : KeysMetadata K} (h : e.keysMeta[i]? = some m) :
    nextAt e i = m.next := by
  rw [nextAt, Int.toNat_natCast, h]

/-- Over the pointer of a key below `k`, the key before the target is below `k`. -/
theorem left_of_link (hlink : LinkOK e o) {m : KeysMetadata K} (hm : e.keysMeta[i]? = some m)
    (hmk : m.userKey < k) :
    ∀ (j : Nat) x, (j : Int) ≤ nextAt e i - 1 → o.keysMeta[j]? = some x → x.userKey < k := by
  intro j x hj hx
  rw [nextAt_of_getElem? hm] at hj
  rcases hlink m (mem_of_getElem? hm) with h | ⟨n, hn, -, hbefore, -⟩
  · omega
  · have hrank := hbefore j x (by omega) hx
    exact (userKey_le_of_rank_le hrank.le).trans_lt hmk

/-- Over the pointer of a key above `k`, the target is above `k`. -/
theorem right_of_link (hlink : LinkOK e o) (hsorted : SortedKeys (o.keysMeta.map KeysMetadata.key))
    {m : KeysMetadata K} (hm : e.keysMeta[i]? = some m) (hmk : k < m.userKey) :
    ∀ (j : Nat) x, 0 ≤ nextAt e i → nextAt e i ≤ j → o.keysMeta[j]? = some x → k < x.userKey := by
  intro j x h0 hj hx
  rw [nextAt_of_getElem? hm] at h0 hj
  rcases hlink m (mem_of_getElem? hm) with h | ⟨n, hn, -, -, htarget⟩
  · omega
  have hjlt : j < o.keysNum := (List.getElem?_eq_some_iff.mp hx).1
  obtain ⟨y, hy⟩ := exists_key (e := o) (show n < o.keysNum by omega)
  have hrow : RowOK (⟨o, j⟩ : Row K) := ⟨hsorted, hjlt⟩
  have hyx : y.userKey ≤ x.userKey := userKey_mono hrow (by omega) hy hx
  exact hmk.trans_le ((userKey_le_of_rank_le (htarget y hy)).trans hyx)

end Link

/-- The pointers of each row fit the next row whenever they belong to it. -/
def Linked (rows : List (Row K)) : Prop :=
  rows.IsChain (fun r r' => r.file.keyPointFilenum = r'.file.filenum → LinkOK r.file r'.file)

/-- The row is the first one that holds `k`, and `i` is an index of `k` in it. -/
def FirstHolder (rows : List (Row K)) (k : K) (file : FileEntry K) (i : Nat) : Prop :=
  ∃ newer first older, rows = newer ++ ⟨file, first⟩ :: older ∧
    (∀ r ∈ newer, ¬ Holds r k) ∧ HoldsAt ⟨file, first⟩ k i

/-- The outcome of a search over rows: the first holder, or nothing. -/
def SearchOK (rows : List (Row K)) (k : K) : Option (FileEntry K × Nat) → Prop
  | none => ∀ r ∈ rows, ¬ Holds r k
  | some (file, i) => FirstHolder rows k file i

variable {rows : List (Row K)} {r : Row K}

omit [LinearOrder K] in
theorem SearchOK.head {k : K} (h : HoldsAt r k i) : SearchOK (r :: rows) k (some (r.file, i)) := by
  refine ⟨[], r.first, rows, rfl, ?_, h⟩
  intro r' hr'
  exact nomatch hr'

omit [LinearOrder K] in
theorem SearchOK.cons {k : K} {res : Option (FileEntry K × Nat)} (hno : ¬ Holds r k)
    (h : SearchOK rows k res) : SearchOK (r :: rows) k res := by
  cases res with
  | none =>
    intro r' hr'
    rcases mem_cons.mp hr' with rfl | hr'
    · exact hno
    · exact h r' hr'
  | some hit =>
  obtain ⟨newer, first, older, rfl, hnewer, hhold⟩ := h
  refine ⟨r :: newer, first, older, rfl, ?_, hhold⟩
  intro r' hr'
  rcases mem_cons.mp hr' with rfl | hr'
  · exact hno
  · exact hnewer r' hr'

/-- A key below the first remaining key, or above the last key, is not held. -/
theorem not_holds_of_lt (hok : RowOK r) {k : K} {lo : KeysMetadata K}
    (hlo : r.file.keysMeta[r.first]? = some lo) (h : k < lo.userKey) : ¬ Holds r k := by
  rintro ⟨i, hi, x, hx, rfl⟩
  exact absurd h (not_lt.mpr (userKey_mono hok hi hlo hx))

theorem not_holds_of_gt (hok : RowOK r) {k : K} {hi : KeysMetadata K}
    (hhi : r.file.keysMeta[r.file.keysNum - 1]? = some hi) (h : hi.userKey < k) : ¬ Holds r k := by
  rintro ⟨i, _, x, hx, rfl⟩
  have hlt : i < r.file.keysNum := (List.getElem?_eq_some_iff.mp hx).1
  exact absurd h (not_lt.mpr (userKey_mono hok (by omega) hx hhi))

/-! ## The hints of one table for the next -/

/-- Where the remaining keys stop to satisfy `p`, which holds of smaller keys first. -/
def belowIndex (r : Row K) (p : K → Bool) : Nat :=
  r.first + (r.file.keysMeta.drop r.first).countP (fun m => p m.userKey)

/-- The index of the first remaining key that is not below `k`. -/
def cutIndex (r : Row K) (k : K) : Nat := belowIndex r (fun u => u < k)

/-- What the neighbours of `k` in a table that does not hold it say about the next
    table: one before the target of the left one, the target of the right one. -/
def hintLeft (r : Row K) (k : K) : Int :=
  if r.first < cutIndex r k then nextAt r.file ((cutIndex r k : Int) - 1) - 1 else -1

def hintRight (r : Row K) (k : K) : Int :=
  if cutIndex r k < r.file.keysNum then nextAt r.file (cutIndex r k) else -1

/-- Hints are only used in the table they belong to. -/
def usedHint (nextFileNum : Nat) (r : Row K) (hint : Int) : Int :=
  if nextFileNum ≠ r.file.filenum then -1 else hint

variable {nextFileNum : Nat}

section Hints

variable {r : Row K} {k : K}

theorem lt_belowIndex_iff (hok : RowOK r) {p : K → Bool}
    (hp : ∀ a b, a ≤ b → p b = true → p a = true) {x : KeysMetadata K} (hi : r.first ≤ i)
    (hx : r.file.keysMeta[i]? = some x) : i < belowIndex r p ↔ p x.userKey = true := by
  have hpair : (r.file.keysMeta.drop r.first).Pairwise
      (fun a b => p b.userKey = true → p a.userKey = true) :=
    ((KeysMerge.sortedKeys_userKey_le hok.sorted).sublist (drop_sublist ..)).imp
      (fun hab hb => hp _ _ hab hb)
  have hx' : (r.file.keysMeta.drop r.first)[i - r.first]? = some x := by
    rw [getElem?_drop, Nat.add_sub_cancel' hi]
    exact hx
  have hcount := lt_countP_iff hpair hx'
  rw [belowIndex, ← hcount]
  omega

theorem lt_cutIndex_iff (hok : RowOK r) {x : KeysMetadata K} (hi : r.first ≤ i)
    (hx : r.file.keysMeta[i]? = some x) : i < cutIndex r k ↔ x.userKey < k := by
  have h := lt_belowIndex_iff hok (p := fun u => u < k)
    (fun a b hab hb => decide_eq_true (hab.trans_lt (of_decide_eq_true hb))) hi hx
  rw [cutIndex, h, decide_eq_true_iff]

theorem cutIndex_bounds (hok : RowOK r) :
    r.first ≤ cutIndex r k ∧ cutIndex r k ≤ r.file.keysNum := by
  have hrem := hok.remaining
  have hle := countP_le_length (p := fun m : KeysMetadata K => decide (m.userKey < k))
    (l := r.file.keysMeta.drop r.first)
  rw [length_drop] at hle
  simp only [FileEntry.keysNum] at hrem ⊢
  rw [cutIndex, belowIndex]
  omega

/-- The hints of a table that does not hold the key are good in the table its
    pointers belong to. -/
theorem hintOK_next {o : FileEntry K} (hok : RowOK r) (hno : ¬ Holds r k)
    (hlink : LinkOK r.file o) (hsorted : SortedKeys (o.keysMeta.map KeysMetadata.key)) :
    HintOK o k (hintLeft r k) (hintRight r k) := by
  obtain ⟨hc1, hc2⟩ := cutIndex_bounds (k := k) hok
  constructor
  · by_cases hlt : r.first < cutIndex r k
    · obtain ⟨x, hx⟩ := exists_key (e := r.file) (show cutIndex r k - 1 < r.file.keysNum by omega)
      have hxk := (lt_cutIndex_iff (k := k) hok (by omega) hx).mp (by omega)
      rw [hintLeft, if_pos hlt,
        show ((cutIndex r k : Int) - 1) = ((cutIndex r k - 1 : Nat) : Int) by omega]
      exact left_of_link hlink hx hxk
    · rw [hintLeft, if_neg hlt]
      intro i x h
      omega
  by_cases hlt : cutIndex r k < r.file.keysNum
  · obtain ⟨x, hx⟩ := exists_key hlt
    have hxk : k < x.userKey := by
      rcases lt_trichotomy x.userKey k with h | h | h
      · exact absurd ((lt_cutIndex_iff hok hc1 hx).mpr h) (lt_irrefl _)
      · exact absurd ⟨_, hc1, x, hx, h⟩ hno
      · exact h
    rw [hintRight, if_pos hlt]
    exact right_of_link hlink hsorted hx hxk
  · rw [hintRight, if_neg hlt]
    intro i x h
    omega

/-- Good hints stay good, and hints of another table are dropped. -/
theorem usedHint_ok (h : nextFileNum = r.file.filenum → HintOK r.file k preLeft preRight) :
    HintOK r.file k (usedHint nextFileNum r preLeft) (usedHint nextFileNum r preRight) := by
  rw [usedHint, usedHint]
  by_cases hnum : nextFileNum ≠ r.file.filenum
  · rw [if_pos hnum, if_pos hnum]
    exact hintOK_none r.file k
  · rw [if_neg hnum, if_neg hnum]
    exact h (not_not.mp hnum)

/-- Along linked rows the hints of a passed table are good in the next one. -/
theorem hintOK_of_linked (hok : RowOK r) (hno : ¬ Holds r k) (hrows : ∀ r' ∈ rows, RowOK r')
    (hlinked : Linked (r :: rows)) :
    ∀ r' ∈ rows.head?, r.file.keyPointFilenum = r'.file.filenum →
      HintOK r'.file k (hintLeft r k) (hintRight r k) := by
  intro r' hr' heq
  cases rows with
  | nil => exact nomatch hr'
  | cons r'' rest =>
  have hrr : r'' = r' := Option.some.inj hr'
  subst hrr
  exact hintOK_next hok hno ((isChain_cons_cons.mp hlinked).1 heq)
    (hrows r'' (.head _)).sorted

/-- **A TABLE WITHOUT THE KEY** is passed with its hints for the next one. -/
theorem getLoop_miss (hok : RowOK r) (hno : ¬ Holds r k)
    (hint : HintOK r.file k (usedHint nextFileNum r preLeft) (usedHint nextFileNum r preRight))
    (rows : List (Row K)) :
    getLoop k (r :: rows) preLeft preRight nextFileNum
      = getLoop k rows (hintLeft r k) (hintRight r k) r.file.keyPointFilenum := by
  obtain ⟨hc1, hc2⟩ := cutIndex_bounds (k := k) hok
  have hrem := hok.remaining
  obtain ⟨lo, hlo⟩ := exists_key hok.remaining
  obtain ⟨hi, hhi⟩ := exists_key (e := r.file)
    (show r.file.keysNum - 1 < r.file.keysNum by omega)
  have hcutLo := lt_cutIndex_iff (k := k) hok le_rfl hlo
  have hcutHi := lt_cutIndex_iff (k := k) hok (by omega) hhi
  have hloop : getLoop k (r :: rows) preLeft preRight nextFileNum =
      match userKeyCompareRange k lo.userKey hi.userKey with
      | .eq =>
        match binarySearchInFile r.file r.first k (usedHint nextFileNum r preLeft)
            (usedHint nextFileNum r preRight) with
        | (some m, _, _) => some (r.file, m)
        | (none, l, r') =>
          getLoop k rows
            (if inRange r.file r.first l then nextAt r.file l - 1 else l)
            (if inRange r.file r.first r' then nextAt r.file r' else r')
            r.file.keyPointFilenum
      | .lt => getLoop k rows (-1) (nextAt r.file r.first) r.file.keyPointFilenum
      | .gt =>
        getLoop k rows (nextAt r.file ((r.file.keysNum : Int) - 1) - 1) (-1)
          r.file.keyPointFilenum := by
    obtain ⟨file, first⟩ := r
    simp only [getLoop, hlo, hhi]
    rfl
  rw [hloop]
  by_cases hlt : k < lo.userKey
  · have hcut : cutIndex r k = r.first := by
      have := mt hcutLo.mp (not_lt.mpr hlt.le)
      omega
    simp only [userKeyCompareRange, if_pos hlt]
    rw [hintLeft, if_neg (by omega), hintRight, if_pos (by omega), hcut]
  by_cases hgt : hi.userKey < k
  · have hcut : cutIndex r k = r.file.keysNum := by
      have := hcutHi.mpr hgt
      omega
    simp only [userKeyCompareRange, if_neg hlt, if_pos hgt]
    rw [hintLeft, if_pos (by omega), hintRight, if_neg (by omega), hcut]
  -- a miss inside the range ends between the two neighbours of `k`
  simp only [userKeyCompareRange, if_neg hlt, if_neg hgt]
  have hnone : (binarySearchInFile r.file r.first k (usedHint nextFileNum r preLeft)
      (usedHint nextFileNum r preRight)).1 = none := by
    cases hres : (binarySearchInFile r.file r.first k (usedHint nextFileNum r preLeft)
        (usedHint nextFileNum r preRight)).1 with
    | none => rfl
    | some m => exact absurd ⟨m, binarySearchInFile_hit hres⟩ hno
  have hlok : lo.userKey < k := lt_of_le_of_ne (not_lt.mp hlt)
    (fun h => hno ⟨r.first, le_rfl, lo, hlo, h⟩)
  have hhik : k < hi.userKey := lt_of_le_of_ne (not_lt.mp hgt)
    (fun h => hno ⟨r.file.keysNum - 1, by omega, hi, hhi, h.symm⟩)
  obtain ⟨i, x, y, hres, hfirst, hx, hxk, hy, hyk⟩ :=
    binarySearchInFile_miss hok hint hlo hlok hhi hhik hnone
  have hyn : i + 1 < r.file.keysNum := (List.getElem?_eq_some_iff.mp hy).1
  have hcut : cutIndex r k = i + 1 := by
    have h1 := (lt_cutIndex_iff hok hfirst hx).mpr hxk
    have h2 := mt (lt_cutIndex_iff (k := k) hok (by omega) hy).mp
      (not_lt.mpr hyk.le)
    omega
  rw [hres]
  dsimp only
  rw [if_pos (show inRange r.file r.first (i : Int) from ⟨by omega, by omega⟩),
    if_pos (show inRange r.file r.first ((i : Int) + 1) from ⟨by omega, by omega⟩),
    hintLeft, if_pos (by omega), hintRight, if_pos (by omega), hcut]
  push_cast
  rw [Int.add_sub_cancel]

/-- **A TABLE WITH THE KEY** ends the search, where its bisection hits. -/
theorem getLoop_hit (hok : RowOK r) (hhold : Holds r k)
    (hint : HintOK r.file k (usedHint nextFileNum r preLeft) (usedHint nextFileNum r preRight))
    (rows : List (Row K)) :
    ∃ m, (binarySearchInFile r.file r.first k (usedHint nextFileNum r preLeft)
        (usedHint nextFileNum r preRight)).1 = some m ∧
      getLoop k (r :: rows) preLeft preRight nextFileNum = some (r.file, m) := by
  have hrem := hok.remaining
  obtain ⟨lo, hlo⟩ := exists_key hok.remaining
  obtain ⟨hi, hhi⟩ := exists_key (e := r.file)
    (show r.file.keysNum - 1 < r.file.keysNum by omega)
  have hlt : ¬ k < lo.userKey := fun h => not_holds_of_lt hok hlo h hhold
  have hgt : ¬ hi.userKey < k := fun h => not_holds_of_gt hok hhi h hhold
  obtain ⟨m, hm⟩ := binarySearchInFile_complete hok hint hhold
  refine ⟨m, hm, ?_⟩
  obtain ⟨a, ha⟩ : ∃ a, binarySearchInFile r.file r.first k (usedHint nextFileNum r preLeft)
      (usedHint nextFileNum r preRight) = (some m, a) := ⟨_, Prod.ext hm rfl⟩
  simp only [usedHint] at ha
  obtain ⟨file, first⟩ := r
  simp only [getLoop, hlo, hhi, userKeyCompareRange, if_neg hlt, if_neg hgt, ha]

end Hints

/-- **THE HINTED SEARCH** over sorted rows with sound pointers ends at the first
    row that holds the key.  The invariant of the loop: when the pointers belong
    to the next table, the hints are good there. -/
theorem getLoop_spec (k : K) (rows : List (Row K)) (preLeft preRight : Int) (nextFileNum : Nat)
    (hrows : ∀ r ∈ rows, RowOK r) (hlinked : Linked rows)
    (hhint : ∀ r ∈ rows.head?, nextFileNum = r.file.filenum → HintOK r.file k preLeft preRight) :
    SearchOK rows k (getLoop k rows preLeft preRight nextFileNum) := by
  induction rows generalizing preLeft preRight nextFileNum with
  | nil =>
    intro r hr
    exact nomatch hr
  | cons r rows ih =>
  have hok : RowOK r := hrows r (.head _)
  have hgood := usedHint_ok (hhint r rfl)
  by_cases hhold : Holds r k
  · obtain ⟨m, hm, hloop⟩ := getLoop_hit hok hhold hgood rows
    rw [hloop]
    exact SearchOK.head (binarySearchInFile_hit hm)
  rw [getLoop_miss hok hhold hgood]
  have hrows' : ∀ r' ∈ rows, RowOK r' := fun r' h => hrows r' (.tail r h)
  refine SearchOK.cons hhold (ih _ _ _ hrows' hlinked.of_cons ?_)
  exact hintOK_of_linked hok hhold hrows' hlinked

/-- The search without hints ends at the first row that holds the key, too. -/
theorem fullSearch_spec (k : K) :
    ∀ (rows : List (Row K)), (∀ r ∈ rows, RowOK r) → SearchOK rows k (fullSearch k rows) := by
  intro rows
  induction rows with
  | nil =>
    intro _ r hr
    exact nomatch hr
  | cons r rows ih =>
  intro hrows
  have hok : RowOK r := hrows r (.head _)
  have hrest := ih (fun r' h => hrows r' (.tail r h))
  obtain ⟨file, first⟩ := r
  rw [fullSearch]
  cases hres : (binarySearchInFile file first k (-1) (-1)).1 with
  | none =>
    refine SearchOK.cons ?_ hrest
    intro hhold
    obtain ⟨m, hm⟩ := binarySearchInFile_complete hok (hintOK_none file k) hhold
    rw [hres] at hm
    exact nomatch hm
  | some m => exact SearchOK.head (binarySearchInFile_hit (r := ⟨file, first⟩) hres)

omit [LinearOrder K] in
/-- A search over a row and older ones ends in the row, or passes it. -/
theorem searchOK_cons_cases {k : K} {res : Option (FileEntry K × Nat)}
    (h : SearchOK (r :: rows) k res) :
    (∃ i, res = some (r.file, i) ∧ HoldsAt r k i) ∨ (¬ Holds r k ∧ SearchOK rows k res) := by
  cases res with
  | none =>
    exact .inr ⟨h r (.head _), fun r' hr' => h r' (.tail r hr')⟩
  | some hit =>
  obtain ⟨newer, first, older, heq, hnewer, hhold⟩ := h
  cases newer with
  | nil =>
    obtain ⟨rfl, -⟩ := List.cons.inj heq
    exact .inl ⟨hit.2, rfl, hhold⟩
  | cons r' newer =>
  obtain ⟨rfl, rfl⟩ := List.cons.inj heq
  exact .inr ⟨hnewer r (.head _), newer, first, older, rfl,
    fun x hx => hnewer x (.tail r hx), hhold⟩

omit [LinearOrder K] in
/-- Two correct searches end in the same table. -/
theorem searchOK_unique {k : K} :
    ∀ {rows : List (Row K)} {a b : Option (FileEntry K × Nat)},
      SearchOK rows k a → SearchOK rows k b → a.map Prod.fst = b.map Prod.fst := by
  intro rows
  induction rows with
  | nil =>
    intro a b ha hb
    have hnil : ∀ {c : Option (FileEntry K × Nat)}, SearchOK [] k c → c = none := by
      intro c hc
      cases c with
      | none => rfl
      | some hit =>
        obtain ⟨newer, first, older, heq, -, -⟩ := hc
        exact absurd heq (by simp)
    rw [hnil ha, hnil hb]
  | cons r rows ih =>
  intro a b ha hb
  rcases searchOK_cons_cases ha with ⟨i, rfl, hi⟩ | ⟨hno, ha'⟩
  · rcases searchOK_cons_cases hb with ⟨j, rfl, -⟩ | ⟨hno, -⟩
    · rfl
    · exact absurd ⟨i, hi⟩ hno
  · rcases searchOK_cons_cases hb with ⟨j, -, hj⟩ | ⟨-, hb'⟩
    · exact absurd ⟨j, hj⟩ hno
    · exact ih ha' hb'

end NvmGet
