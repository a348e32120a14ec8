import MatrixKV.DbFormatProofs
import MatrixKV.BisectProofs

/-! # Overlapping inputs — VersionStorageInfo::GetOverlappingInputs above level 0

    A level above 0 keeps its files sorted and disjoint.  The source finds one
    file that overlaps a key range by bisection and then walks backward and
    forward from it.

    * `getOverlappingInputs` is that search, with `sstableKeyCompare` as the
      only comparison.
    * **`getOverlappingInputs_eq_filter`**: on a sorted level the search returns
      exactly the files that overlap the range, in level order. -/

namespace Overlap

open List DbFormat Bisect

variable {K : Type} [LinearOrder K]

/-! ## The order of file bounds -/

/-- The linear order that `sstableKeyCompare` decides. -/
def boundRank (k : InternalKey K) : K ×ₗ Nat :=
  toLex (k.userKey, if k.packed = rangeTombstoneSentinel then 0 else 1)

theorem sstableKeyCompare_gt_iff (a b : InternalKey K) :
    sstableKeyCompare a b = .gt ↔ boundRank b < boundRank a := by
  rw [boundRank, boundRank, Prod.Lex.toLex_lt_toLex]
  rcases lt_trichotomy a.userKey b.userKey with h | h | h
  · simp [sstableKeyCompare, h.cmp_eq_lt, not_lt_of_gt h, ne_of_gt h]
  · by_cases ha : a.packed = rangeTombstoneSentinel <;>
      by_cases hb : b.packed = rangeTombstoneSentinel <;>
      simp [sstableKeyCompare, h, ha, hb]
  · simp [sstableKeyCompare, h.cmp_eq_gt, h]

theorem sstableKeyCompare_le_iff (a b : InternalKey K) :
    sstableKeyCompare a b ≠ .gt ↔ boundRank a ≤ boundRank b := by
  rw [Ne, sstableKeyCompare_gt_iff, not_lt]

/-- Only the sentinel is below the other bounds of its user key. -/
theorem boundRank_le_of_ne {a b : InternalKey K} (h : a.userKey ≤ b.userKey)
    (hb : a.userKey = b.userKey → b.packed ≠ rangeTombstoneSentinel) :
    boundRank a ≤ boundRank b := by
  rw [boundRank, boundRank, Prod.Lex.toLex_le_toLex]
  rcases lt_or_eq_of_le h with hlt | heq
  · exact .inl hlt
  refine .inr ⟨heq, ?_⟩
  show (if a.packed = rangeTombstoneSentinel then 0 else 1)
    ≤ if b.packed = rangeTombstoneSentinel then 0 else 1
  rw [if_neg (hb heq)]
  split <;> omega

theorem boundRank_le_of_point {a b : InternalKey K} (hb : b.type ≠ .rangeDeletion)
    (h : a.userKey ≤ b.userKey) : boundRank a ≤ boundRank b :=
  boundRank_le_of_ne h fun _ heq => hb (packed_inj heq).2

/-- A file overlaps `[b, e]` when it neither ends before `b` nor starts after
    `e`. -/
def Overlaps (b e : InternalKey K) (f : FileMetaData K) : Prop :=
  sstableKeyCompare b f.largest ≠ .gt ∧ sstableKeyCompare f.smallest e ≠ .gt

instance (b e : InternalKey K) (f : FileMetaData K) : Decidable (Overlaps b e f) :=
  inferInstanceAs (Decidable (_ ∧ _))

/-- The invariant of a level above 0: every file's bounds are in order, and
    each file ends before the next one starts. -/
structure LevelSorted (files : List (FileMetaData K)) : Prop where
  bounds : ∀ f ∈ files, sstableKeyCompare f.smallest f.largest ≠ .gt
  disjoint : files.Pairwise (fun f g => sstableKeyCompare f.largest g.smallest ≠ .gt)

section Level

variable {files files' : List (FileMetaData K)} {f g : FileMetaData K}

theorem LevelSorted.sublist (h : LevelSorted files) (hsub : files'.Sublist files) :
    LevelSorted files' where
  bounds := fun f hf => h.bounds f (hsub.subset hf)
  disjoint := h.disjoint.sublist hsub

theorem LevelSorted.userKey_le (h : LevelSorted files) (hf : f ∈ files) :
    f.smallest.userKey ≤ f.largest.userKey :=
  sstableKeyCompare_le_userKey (h.bounds f hf)

theorem LevelSorted.le_of_mem (h : LevelSorted (f :: files)) (hg : g ∈ files) :
    f.largest.userKey ≤ g.smallest.userKey :=
  sstableKeyCompare_le_userKey ((pairwise_cons.mp h.disjoint).1 g hg)

end Level

/-! ## The search -/

/-- The test of the bisection at one file. -/
def overlapProbe (b e : InternalKey K) (files : List (FileMetaData K)) (mid : Nat) : Ordering :=
  match files[mid]? with
  | none => .eq
  | some f =>
    if sstableKeyCompare b f.largest = .gt then .lt
    else if sstableKeyCompare f.smallest e = .gt then .gt
    else .eq

/-- The backward walk of `ExtendFileRangeOverlappingInterval`: the number of
    files in front of the range. -/
def extendBackward (b : InternalKey K) (files : List (FileMetaData K)) : Nat → Nat
  | 0 => 0
  | i + 1 =>
    match files[i]? with
    | none => i + 1
    | some f =>
      if sstableKeyCompare b f.largest ≠ .gt then extendBackward b files i else i + 1

/-- The forward walk: how many of the following files still start in range. -/
def extendForward (e : InternalKey K) : List (FileMetaData K) → Nat
  | [] => 0
  | f :: fs => if sstableKeyCompare f.smallest e ≠ .gt then extendForward e fs + 1 else 0

/-- `ExtendFileRangeOverlappingInterval` from the file `mid`. -/
def overlapSlice (files : List (FileMetaData K)) (b e : InternalKey K) (mid : Nat) :
    List (FileMetaData K) :=
  (files.take (mid + extendForward e (files.drop (mid + 1)) + 1)).drop
    (extendBackward b files (mid + 1))

/-- `GetOverlappingInputs(level, begin, end)` for a level above 0. -/
def getOverlappingInputs (files : List (FileMetaData K)) (b e : InternalKey K) :
    List (FileMetaData K) :=
  match (bisect (overlapProbe b e files) files.length 0 ((files.length : Int) - 1)).1 with
  | none => []
  | some mid => overlapSlice files b e mid

/-! ## The search is the filter -/

/-- A filter whose predicate holds on one index interval is a slice. -/
theorem filter_eq_slice {α : Type} (p : α → Bool) :
    ∀ (L : List α) (a n : Nat),
      (∀ (i : Nat) (h : i < L.length), p L[i] = true ↔ a ≤ i ∧ i < n) →
      L.filter p = (L.take n).drop a := by
  intro L
  induction L with
  | nil => intro a n _; simp
  | cons x xs ih =>
  intro a n h
  have hx : p x = true ↔ a ≤ 0 ∧ 0 < n := h 0 (by simp)
  have hxs : ∀ (i : Nat) (hi : i < xs.length),
      p xs[i] = true ↔ a - 1 ≤ i ∧ i < n - 1 := by
    intro i hi
    have hi' := h (i + 1) (by simp only [length_cons]; omega)
    rw [getElem_cons_succ] at hi'
    rw [hi']
    constructor
    · intro ⟨h1, h2⟩
      exact ⟨by omega, by omega⟩
    · intro ⟨h1, h2⟩
      exact ⟨by omega, by omega⟩
  cases n with
  | zero =>
    rw [filter_cons_of_neg (by rw [hx]; omega), ih (a - 1) 0 (by simpa using hxs)]
    simp
  | succ n =>
  cases a with
  | zero =>
    rw [filter_cons_of_pos (hx.mpr ⟨by omega, by omega⟩), ih 0 n (by simpa using hxs)]
    simp
  | succ a =>
    rw [filter_cons_of_neg (by rw [hx]; omega), ih a n (by simpa using hxs)]
    simp

section Sorted

variable {files : List (FileMetaData K)} {b e : InternalKey K}

/-- Along a sorted level the upper bounds go up. -/
theorem LevelSorted.largest_mono (hs : LevelSorted files) {i j : Nat}
    (hj : j < files.length) (hij : i ≤ j) :
    boundRank files[i].largest ≤ boundRank files[j].largest := by
  rcases Nat.eq_or_lt_of_le hij with h | h
  · subst h
    exact le_rfl
  have hdis := pairwise_iff_getElem.mp hs.disjoint i j (by omega) hj h
  have hb := hs.bounds files[j] (getElem_mem hj)
  exact ((sstableKeyCompare_le_iff _ _).mp hdis).trans ((sstableKeyCompare_le_iff _ _).mp hb)

/-- Along a sorted level the lower bounds go up. -/
theorem LevelSorted.smallest_mono (hs : LevelSorted files) {i j : Nat}
    (hj : j < files.length) (hij : i ≤ j) :
    boundRank files[i].smallest ≤ boundRank files[j].smallest := by
  rcases Nat.eq_or_lt_of_le hij with h | h
  · subst h
    exact le_rfl
  have hdis := pairwise_iff_getElem.mp hs.disjoint i j (by omega) hj h
  have hb := hs.bounds files[i] (getElem_mem (by omega))
  exact ((sstableKeyCompare_le_iff _ _).mp hb).trans ((sstableKeyCompare_le_iff _ _).mp hdis)

theorem overlapProbe_lt_iff {i : Nat} (hi : i < files.length) :
    overlapProbe b e files i = .lt ↔ boundRank files[i].largest < boundRank b := by
  rw [← sstableKeyCompare_gt_iff]
  simp only [overlapProbe, getElem?_eq_getElem hi]
  by_cases h1 : sstableKeyCompare b files[i].largest = .gt
  · simp [h1]
  · by_cases h2 : sstableKeyCompare files[i].smallest e = .gt <;> simp [h1, h2]

theorem overlapProbe_eq_iff {i : Nat} (hi : i < files.length) :
    overlapProbe b e files i = .eq ↔ Overlaps b e files[i] := by
  simp only [overlapProbe, getElem?_eq_getElem hi, Overlaps]
  by_cases h1 : sstableKeyCompare b files[i].largest = .gt
  · simp [h1]
  · by_cases h2 : sstableKeyCompare files[i].smallest e = .gt <;> simp [h1, h2]

theorem overlapProbe_gt_iff {i : Nat} (hi : i < files.length) :
    overlapProbe b e files i = .gt ↔
      boundRank b ≤ boundRank files[i].largest ∧ boundRank e < boundRank files[i].smallest := by
  rw [← sstableKeyCompare_gt_iff, ← sstableKeyCompare_le_iff]
  simp only [overlapProbe, getElem?_eq_getElem hi]
  by_cases h1 : sstableKeyCompare b files[i].largest = .gt
  · simp [h1]
  · by_cases h2 : sstableKeyCompare files[i].smallest e = .gt <;> simp [h1, h2]

theorem overlapProbe_ordered (hs : LevelSorted files) :
    Ordered (overlapProbe b e files) 0 ((files.length : Int) - 1) := by
  constructor
  · intro i j _ hij hj h
    have hj' : j < files.length := by omega
    have hi' : i < files.length := by omega
    rw [overlapProbe_lt_iff hj'] at h
    rw [overlapProbe_lt_iff hi']
    exact (hs.largest_mono hj' hij).trans_lt h
  · intro i j _ hij hj h
    have hj' : j < files.length := by omega
    have hi' : i < files.length := by omega
    rw [overlapProbe_gt_iff hi'] at h
    rw [overlapProbe_gt_iff hj']
    exact ⟨h.1.trans (hs.largest_mono hj' hij), h.2.trans_le (hs.smallest_mono hj' hij)⟩

/-- The backward walk stops right behind the last file that ends before `b`. -/
theorem extendBackward_spec (hs : LevelSorted files) (n : Nat) (hn : n ≤ files.length) :
    extendBackward b files n ≤ n ∧ ∀ (i : Nat) (hi : i < files.length), i < n →
      (boundRank b ≤ boundRank files[i].largest ↔ extendBackward b files n ≤ i) := by
  induction n with
  | zero =>
    refine ⟨le_rfl, ?_⟩
    intro i _ hi
    omega
  | succ n ih =>
  obtain ⟨hle, hiff⟩ := ih (by omega)
  simp only [extendBackward, getElem?_eq_getElem (show n < files.length by omega)]
  split_ifs with hb
  · refine ⟨by omega, ?_⟩
    intro i hi hin
    rcases Nat.lt_succ_iff_lt_or_eq.mp hin with h | h
    · exact hiff i hi h
    · subst h
      exact ⟨fun _ => hle, fun _ => (sstableKeyCompare_le_iff _ _).mp hb⟩
  refine ⟨le_rfl, ?_⟩
  intro i hi hin
  have hgt := (sstableKeyCompare_gt_iff _ _).mp (not_not.mp hb)
  constructor
  · intro h
    exact absurd (lt_of_le_of_lt (h.trans (hs.largest_mono (by omega)
      (show i ≤ n by omega))) hgt) (lt_irrefl _)
  · intro h
    omega

/-- The forward walk counts the files that start in range. -/
theorem extendForward_spec {fs : List (FileMetaData K)}
    (hs : fs.Pairwise (fun f g => boundRank f.smallest ≤ boundRank g.smallest)) :
    ∀ (i : Nat) (hi : i < fs.length),
      boundRank fs[i].smallest ≤ boundRank e ↔ i < extendForward e fs := by
  induction fs with
  | nil => intro i hi; exact absurd hi (Nat.not_lt_zero i)
  | cons f fs ih =>
  intro i hi
  obtain ⟨hhead, htail⟩ := pairwise_cons.mp hs
  rw [extendForward]
  split_ifs with h
  · cases i with
    | zero => exact ⟨fun _ => Nat.succ_pos _, fun _ => (sstableKeyCompare_le_iff _ _).mp h⟩
    | succ i =>
      rw [getElem_cons_succ, ih htail i (by simpa using hi)]
      exact Nat.succ_lt_succ_iff.symm
  have hgt := (sstableKeyCompare_gt_iff _ _).mp (not_not.mp h)
  refine ⟨?_, fun h0 => absurd h0 (Nat.not_lt_zero i)⟩
  intro hle
  have hmem := getElem_mem hi
  rcases mem_cons.mp hmem with heq | hmem
  · rw [heq] at hle
    exact absurd (hgt.trans_le hle) (lt_irrefl _)
  · exact absurd (hgt.trans_le ((hhead _ hmem).trans hle)) (lt_irrefl _)

/-- From any file that overlaps the range the two walks find all of them. -/
theorem overlapSlice_eq_filter (hs : LevelSorted files) {mid : Nat} (hm : mid < files.length)
    (hover : Overlaps b e files[mid]) :
    overlapSlice files b e mid = files.filter (fun f => Overlaps b e f) := by
  obtain ⟨hover1, hover2⟩ := hover
  rw [sstableKeyCompare_le_iff] at hover1 hover2
  obtain ⟨hback, hbackIff⟩ := extendBackward_spec (b := b) hs (mid + 1) (by omega)
  have hdrop : (files.drop (mid + 1)).Pairwise
      (fun f g => boundRank f.smallest ≤ boundRank g.smallest) := by
    refine pairwise_iff_getElem.mpr ?_
    intro i j hi hj hij
    simp only [length_drop] at hi hj
    simp only [getElem_drop]
    exact hs.smallest_mono (by omega) (by omega)
  have hfwd := extendForward_spec (e := e) hdrop
  refine (filter_eq_slice _ files _ _ ?_).symm
  intro i hi
  rw [decide_eq_true_iff, Overlaps, sstableKeyCompare_le_iff, sstableKeyCompare_le_iff]
  by_cases him : i < mid + 1
  · -- at or before `mid` only the lower end matters
    have hsmall := (hs.smallest_mono hm (show i ≤ mid by omega)).trans hover2
    rw [hbackIff i hi him]
    exact ⟨fun h => ⟨h.1, by omega⟩, fun h => ⟨h.1, hsmall⟩⟩
  -- behind `mid` only the upper end matters
  have hlarge := hover1.trans (hs.largest_mono hi (show mid ≤ i by omega))
  have hi' := hfwd (i - (mid + 1)) (by rw [length_drop]; omega)
  simp only [getElem_drop, Nat.add_sub_cancel' (show mid + 1 ≤ i by omega)] at hi'
  rw [hi']
  exact ⟨fun h => ⟨by omega, by omega⟩, fun h => ⟨hlarge, by omega⟩⟩

/-- The bisection of a sorted level finds an overlapping file if there is one. -/
theorem bisect_overlap (hs : LevelSorted files) (b e : InternalKey K) {res : Option Nat}
    (hres : (bisect (overlapProbe b e files) files.length 0 ((files.length : Int) - 1)).1 = res) :
    (res = none → files.filter (fun f => Overlaps b e f) = []) ∧
    ∀ mid, res = some mid → ∃ h : mid < files.length, Overlaps b e files[mid] := by
  constructor
  · rintro rfl
    refine filter_eq_nil_iff.mpr ?_
    intro f hf hover
    obtain ⟨i, hi, rfl⟩ := getElem_of_mem hf
    -- an overlapping file would have been found
    obtain ⟨m, hm⟩ := bisect_complete files.length (le_refl 0) (by omega)
      (overlapProbe_ordered hs) (i := i) (by omega) (by omega)
      ((overlapProbe_eq_iff hi).mpr (by simpa using hover))
    rw [hres] at hm
    exact nomatch hm
  · rintro mid rfl
    obtain ⟨-, hmid, heq⟩ := bisect_hit _ _ _ _ mid (le_refl 0) hres
    have hm : mid < files.length := by omega
    exact ⟨hm, (overlapProbe_eq_iff hm).mp heq⟩

/-- **THE OVERLAP**: on a sorted level the search returns exactly the files that
    overlap the range, in level order. -/
theorem getOverlappingInputs_eq_filter (hs : LevelSorted files) (b e : InternalKey K) :
    getOverlappingInputs files b e = files.filter (fun f => Overlaps b e f) := by
  rw [getOverlappingInputs]
  cases hres : (bisect (overlapProbe b e files) files.length 0 ((files.length : Int) - 1)).1 with
  | none => exact ((bisect_overlap hs b e hres).1 rfl).symm
  | some mid =>
    obtain ⟨hm, hover⟩ := (bisect_overlap hs b e hres).2 mid rfl
    exact overlapSlice_eq_filter hs hm hover

end Sorted

end Overlap
