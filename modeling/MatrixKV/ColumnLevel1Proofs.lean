import MatrixKV.ColumnPrefixProofs

/-! # The level-1 files of a column — where the selection ends

    With overlapping level-1 files the selection walks along their bounds and takes
    the files it has reached.  It looks at one file at a time, so it does not see
    that the next file may begin with the user key at which the last one ends:
    neighbouring files of a level only differ in their internal keys.

    * `EndsAt` says at which cell the selection ends, from the column, the size and
      the files alone; `pickHaveL1_endsAt` — the loop ends there.
    * `CleanCut` is what the compaction needs: no file that is left holds a chosen
      key, or shares a key with a file that is taken.
    * **`pickColumnCompaction_cleanCut_iff`**: when a pick is a clean cut. -/

namespace ColumnLevel1

open List DbFormat SstableMeta KeysMerge Overlap ColumnPick ColumnEntries ColumnRows ColumnPrefix

variable {K : Type} [LinearOrder K]

/-! ## Files of level 1 -/

/-- A sorted level: the files follow each other by internal key, and begin with a
    key that a write has given. -/
structure Level1 (files : List (FileMetaData K)) : Prop where
  bounds : ∀ f ∈ files, f.smallest.rank ≤ f.largest.rank
  disjoint : files.Pairwise (fun f g => f.largest.rank < g.smallest.rank)
  starts : ∀ f ∈ files, f.smallest.packed < rangeTombstoneSentinel

/-- The user keys of a file.  A file that ends with the sentinel of a range
    tombstone ends in front of that key. -/
def HoldsKey (f : FileMetaData K) (k : K) : Prop :=
  f.smallest.userKey ≤ k ∧
    (k < f.largest.userKey ∨ k = f.largest.userKey ∧ f.largest.packed ≠ rangeTombstoneSentinel)

/-- The user keys between the bounds of a file, as the loop compares them. -/
def Within (f : FileMetaData K) (k : K) : Prop :=
  f.smallest.userKey ≤ k ∧ k ≤ f.largest.userKey

variable {f : FileMetaData K}

theorem HoldsKey.within {k : K} (h : HoldsKey f k) : Within f k := by
  refine ⟨h.1, ?_⟩
  rcases h.2 with hlt | ⟨heq, -⟩
  · exact hlt.le
  · exact heq.le

/-- A file that holds the user key of its end does not end with the sentinel. -/
theorem HoldsKey.ne_sentinel {k : K} (h : HoldsKey f k) (heq : k = f.largest.userKey) :
    f.largest.packed ≠ rangeTombstoneSentinel := by
  rcases h.2 with hlt | ⟨-, hsent⟩
  · exact absurd heq (ne_of_lt hlt)
  · exact hsent

variable {g : FileMetaData K}

section Level

variable {files : List (FileMetaData K)}

section

variable (h : Level1 files)
include h

theorem Level1.sublist {files' : List (FileMetaData K)}
    (hsub : files'.Sublist files) : Level1 files' where
  bounds := fun f hf => h.bounds f (hsub.subset hf)
  disjoint := h.disjoint.sublist hsub
  starts := fun f hf => h.starts f (hsub.subset hf)

/-- A file whose bounds have one user key does not end with the sentinel. -/
theorem Level1.point (hf : f ∈ files)
    (heq : f.smallest.userKey = f.largest.userKey) : f.largest.packed ≠ rangeTombstoneSentinel := by
  intro hsent
  have hstart := h.starts f hf
  rcases (rank_le_iff _ _).mp (h.bounds f hf) with hlt | ⟨-, hle⟩
  · exact absurd heq (ne_of_lt hlt)
  · omega

theorem Level1.userKey_le (hf : f ∈ files) :
    f.smallest.userKey ≤ f.largest.userKey :=
  userKey_le_of_rank_le (h.bounds f hf)

theorem Level1.holds_smallest (hf : f ∈ files) :
    HoldsKey f f.smallest.userKey := by
  refine ⟨le_rfl, ?_⟩
  rcases lt_or_eq_of_le (h.userKey_le hf) with hlt | heq
  · exact .inl hlt
  · exact .inr ⟨heq, h.point hf heq⟩

theorem Level1.boundRank_le (hf : f ∈ files) :
    boundRank f.smallest ≤ boundRank f.largest :=
  boundRank_le_of_ne (h.userKey_le hf) (h.point hf)

theorem Level1.boundRank_le_next (hg : g ∈ files)
    (hlt : f.largest.rank < g.smallest.rank) : boundRank f.largest ≤ boundRank g.smallest :=
  boundRank_le_of_ne (userKey_le_of_rank_le hlt.le) (fun _ => ne_of_lt (h.starts g hg))

/-- The level's own comparison, `sstableKeyCompare`, sees it sorted. -/
theorem Level1.levelSorted : LevelSorted files where
  bounds := fun _ hf => (sstableKeyCompare_le_iff _ _).mpr (h.boundRank_le hf)
  disjoint := .imp_of_mem
    (fun _ hg hlt => (sstableKeyCompare_le_iff _ _).mpr (h.boundRank_le_next hg hlt)) h.disjoint

/-- Of two files of a level one ends before the other begins. -/
theorem Level1.apart (hf : f ∈ files) (hg : g ∈ files) (hne : f ≠ g) :
    f.largest.rank < g.smallest.rank ∨ g.largest.rank < f.smallest.rank := by
  have : Std.Symm (fun f g : FileMetaData K =>
      f.largest.rank < g.smallest.rank ∨ g.largest.rank < f.smallest.rank) :=
    ⟨fun _ _ hor => hor.symm⟩
  have hpair : files.Pairwise (fun f g =>
      f.largest.rank < g.smallest.rank ∨ g.largest.rank < f.smallest.rank) :=
    h.disjoint.imp .inl
  exact hpair.forall hf hg hne

end

end Level

/-! ## The bound the loop stands at -/

/-- `k` has passed the bounds in front of position `idx`, and not the one there. -/
def At (ranges : List K) (k : K) (idx : Nat) : Prop :=
  (∀ j < idx, Passes ranges k j) ∧ ¬ Passes ranges k idx

/-- The files that are taken with a cell of key `k`: those that begin at or before
    it, up to the first one that does not end before it. -/
def filesUpTo (k : K) : List (FileMetaData K) → List (FileMetaData K)
  | [] => []
  | f :: fs =>
    if f.smallest.userKey ≤ k then
      f :: if f.largest.userKey < k then filesUpTo k fs else []
    else []

theorem filesUpTo_sublist (k : K) (files : List (FileMetaData K)) :
    (filesUpTo k files).Sublist files := by
  fun_induction filesUpTo k files with
  | case1 => exact .slnil
  | case2 f fs _ ih =>
    refine .cons_cons f ?_
    split
    · exact ih
    · exact nil_sublist fs
  | case3 => exact nil_sublist _

theorem at_cons_cons (s l : K) (ranges : List K) (k : K) (idx : Nat) :
    At (s :: l :: ranges) k idx ↔ idx = 0 ∧ k < s ∨ idx = 1 ∧ s ≤ k ∧ k ≤ l ∨
      ∃ i, idx = i + 2 ∧ s ≤ k ∧ l < k ∧ At ranges k i := by
  constructor
  · rintro ⟨hbelow, hnot⟩
    match idx, hbelow, hnot with
    | 0, _, hnot =>
      rw [passes_zero] at hnot
      exact .inl ⟨rfl, not_le.mp hnot⟩
    | 1, hbelow, hnot =>
      rw [passes_one] at hnot
      exact .inr (.inl ⟨rfl, (passes_zero s l ranges k).mp (hbelow 0 (by omega)), not_lt.mp hnot⟩)
    | i + 2, hbelow, hnot =>
      refine .inr (.inr ⟨i, rfl, (passes_zero s l ranges k).mp (hbelow 0 (by omega)),
        (passes_one s l ranges k).mp (hbelow 1 (by omega)), ?_, ?_⟩)
      · intro j hj
        exact (passes_cons_cons s l ranges k j).mp (hbelow (j + 2) (by omega))
      · rwa [passes_cons_cons] at hnot
  rintro (⟨rfl, h⟩ | ⟨rfl, hs, hl⟩ | ⟨i, rfl, hs, hl, hbelow, hnot⟩)
  · refine ⟨fun j hj => by omega, ?_⟩
    rw [passes_zero]
    exact not_le.mpr h
  · refine ⟨?_, ?_⟩
    · intro j hj
      obtain rfl : j = 0 := by omega
      exact (passes_zero s l ranges k).mpr hs
    · rw [passes_one]
      exact not_lt.mpr hl
  · refine ⟨?_, by rwa [passes_cons_cons]⟩
    intro j hj
    match j, hj with
    | 0, _ => exact (passes_zero s l ranges k).mpr hs
    | 1, _ => exact (passes_one s l ranges k).mpr hl
    | j + 2, hj => exact (passes_cons_cons s l ranges k j).mpr (hbelow j (by omega))

/-- The number of files that the loop's index stands for. -/
theorem take_eq_filesUpTo (k : K) (files : List (FileMetaData K)) (idx : Nat)
    (h : At (l1Ranges files) k idx) : files.take ((idx + 1) / 2) = filesUpTo k files := by
  induction files generalizing idx with
  | nil =>
    exact take_nil
  | cons f fs ih =>
  have hranges : l1Ranges (f :: fs)
      = f.smallest.userKey :: f.largest.userKey :: l1Ranges fs := rfl
  rw [hranges, at_cons_cons] at h
  rcases h with ⟨rfl, hlt⟩ | ⟨rfl, hs, hl⟩ | ⟨i, rfl, hs, hl, hi⟩
  · rw [filesUpTo, if_neg (not_le.mpr hlt)]
    rfl
  · rw [filesUpTo, if_pos hs, if_neg (not_lt.mpr hl)]
    rfl
  · rw [filesUpTo, if_pos hs, if_pos hl, ← ih i hi,
      show (i + 2 + 1) / 2 = (i + 1) / 2 + 1 by omega]
    rfl

/-- At an odd position the key lies within a file, and passing the bound there is
    passing the end of a file that it lies in. -/
theorem at_odd_iff (k : K) :
    ∀ {files : List (FileMetaData K)} {idx : Nat}, LevelSorted files → At (l1Ranges files) k idx →
      (idx % 2 = 1 ↔ ∃ f ∈ files, Within f k) ∧
      ∀ k', idx % 2 = 1 →
        (Passes (l1Ranges files) k' idx ↔ ∃ f ∈ files, Within f k ∧ f.largest.userKey < k') := by
  intro files
  induction files with
  | nil =>
    intro idx _ h
    have hzero : idx = 0 := by
      by_contra hne
      obtain ⟨r, hr, -⟩ := h.1 0 (by omega)
      exact nomatch hr
    subst hzero
    exact ⟨⟨nofun, (fun ⟨f, hf, _⟩ => nomatch hf)⟩, nofun⟩
  | cons f fs ih =>
  intro idx hs h
  have hranges : l1Ranges (f :: fs)
      = f.smallest.userKey :: f.largest.userKey :: l1Ranges fs := rfl
  have hnext : ∀ g ∈ fs, f.largest.userKey ≤ g.smallest.userKey := fun g hg =>
    hs.le_of_mem hg
  have hfl := hs.userKey_le (.head _)
  rw [hranges, at_cons_cons] at h
  rw [hranges]
  rcases h with ⟨rfl, hlt⟩ | ⟨rfl, hsk, hkl⟩ | ⟨i, rfl, hsk, hlk, hi⟩
  · refine ⟨⟨nofun, ?_⟩, nofun⟩
    -- in front of the first file no file begins
    rintro ⟨g, hg, hin⟩
    rcases mem_cons.mp hg with rfl | hmem
    · exact absurd hin.1 (not_le.mpr hlt)
    · exact absurd (hfl.trans ((hnext g hmem).trans hin.1)) (not_le.mpr hlt)
  · refine ⟨⟨fun _ => ⟨f, .head _, hsk, hkl⟩, fun _ => rfl⟩, ?_⟩
    intro k' _
    rw [passes_one]
    constructor
    · intro hlt
      exact ⟨f, .head _, ⟨hsk, hkl⟩, hlt⟩
    · rintro ⟨g, hg, -, hlt⟩
      rcases mem_cons.mp hg with rfl | hmem
      · exact hlt
      · exact ((hnext g hmem).trans (hs.userKey_le hg)).trans_lt hlt
  · obtain ⟨hodd, hpass⟩ := ih (hs.sublist (sublist_cons_self f fs)) hi
    have hnot : ¬ Within f k := fun h => absurd h.2 (not_le.mpr hlk)
    have hparity : (i + 2) % 2 = i % 2 := by omega
    rw [hparity, exists_mem_cons_iff, or_iff_right hnot]
    refine ⟨hodd, ?_⟩
    intro k' hi1
    rw [passes_cons_cons, hpass k' hi1, exists_mem_cons_iff, or_iff_right fun h => hnot h.1]

/-! ## Where the loop ends -/

/-- The selection may end behind the cell `a`, after `pre` and before `post`: the
    size is reached, and `a` lies outside the files, or the next cell lies behind a
    file around `a`. -/
def CanEnd (stop : Nat) (files : List (FileMetaData K)) (pre : List (Cell K)) (a : Cell K)
    (post : List (Cell K)) : Prop :=
  stop ≤ cellsSize (pre ++ [a]) ∧
    ((∀ f ∈ files, ¬ Within f a.userKey) ∨
      ∃ f ∈ files, Within f a.userKey ∧ ∃ b ∈ post.head?, f.largest.userKey < b.userKey)

/-- The selection from `column` ends at the first cell where it may, or at the last
    one. -/
structure EndsAt (stop : Nat) (files : List (FileMetaData K)) (column pre : List (Cell K))
    (a : Cell K) (post : List (Cell K)) : Prop where
  split : column = pre ++ a :: post
  ends : post = [] ∨ CanEnd stop files pre a post
  first : ∀ pre' a' post', column = pre' ++ a' :: post' → pre'.length < pre.length →
    ¬ CanEnd stop files pre' a' post'

variable {a : Cell K} {column post pre : List (Cell K)}

/-- The end of a selection is unique. -/
theorem EndsAt.unique {stop : Nat} {files : List (FileMetaData K)} {pre' post' : List (Cell K)}
    {a' : Cell K} (h : EndsAt stop files column pre a post)
    (h' : EndsAt stop files column pre' a' post') : pre = pre' ∧ a = a' ∧ post = post' := by
  -- an earlier end is no last cell, so the selection may end there
  have hlen : ∀ {p q p' q' : List (Cell K)} {c c' : Cell K}, EndsAt stop files column p c q →
      EndsAt stop files column p' c' q' → ¬ p.length < p'.length := by
    intro p q p' q' c c' he he' hlt
    refine he'.first p c q he.split hlt (he.ends.resolve_left ?_)
    intro hnil
    have h1 := congrArg List.length he.split
    have h2 := congrArg List.length he'.split
    simp only [hnil, length_append, length_cons, length_nil] at h1 h2
    omega
  have heq : pre.length = pre'.length := by
    have h1 := hlen h h'
    have h2 := hlen h' h
    omega
  obtain ⟨hpre, hrest⟩ := append_inj (h.split.symm.trans h'.split) heq
  obtain ⟨ha, hpost⟩ := List.cons.inj hrest
  exact ⟨hpre, ha, hpost⟩

/-- `CanEnd` in terms of the loop's index. -/
theorem canEnd_iff {stop : Nat} {files : List (FileMetaData K)} (hs : LevelSorted files) {idx : Nat}
    (hat : At (l1Ranges files) a.userKey idx) :
    CanEnd stop files pre a post ↔ stop ≤ cellsSize (pre ++ [a]) ∧
      (idx % 2 = 1 → ∃ b ∈ post.head?, Passes (l1Ranges files) b.userKey idx) := by
  obtain ⟨hodd, hpass⟩ := at_odd_iff a.userKey hs hat
  refine and_congr_right fun _ => ?_
  constructor
  · rintro (hout | ⟨f, hf, hin, b, hb, hlt⟩) hidx
    · obtain ⟨f, hf, hin⟩ := hodd.mp hidx
      exact absurd hin (hout f hf)
    · exact ⟨b, hb, (hpass b.userKey hidx).mpr ⟨f, hf, hin, hlt⟩⟩
  intro h
  by_cases hidx : idx % 2 = 1
  · obtain ⟨b, hb, hb'⟩ := h hidx
    obtain ⟨f, hf, hin, hlt⟩ := (hpass b.userKey hidx).mp hb'
    exact .inr ⟨f, hf, hin, b, hb, hlt⟩
  · exact .inl fun f hf hin => hidx (hodd.mpr ⟨f, hf, hin⟩)

section Loop

variable {files : List (FileMetaData K)} {stop : Nat}

/-- **THE LOOP**, from a cell `a` that it has added without ending there. -/
theorem pickHaveL1_from (hs : LevelSorted files) :
    ∀ (cs done : List (Cell K)) (a : Cell K) (st : PickState K) (idx : Nat),
      st.allComptionSize = cellsSize (done ++ [a]) → At (l1Ranges files) a.userKey idx →
      ¬ (idx % 2 = 0 ∧ stop ≤ st.allComptionSize) →
      (a :: cs).Pairwise (fun a b => a.userKey ≤ b.userKey) →
      ∃ taken left pre c x idx', cs = taken ++ left ∧ done ++ a :: taken = pre ++ [c] ∧
        pickHaveL1 (l1Ranges files) stop st idx cs
          = ({ st.addAll taken with l0Largest := x }, idx') ∧
        At (l1Ranges files) c.userKey idx' ∧ (left = [] ∨ CanEnd stop files pre c left) ∧
        ∀ pre' c' post', done ++ a :: cs = pre' ++ c' :: post' → done.length ≤ pre'.length →
          pre'.length < pre.length → ¬ CanEnd stop files pre' c' post' := by
  intro cs
  induction cs with
  | nil =>
    intro done a st idx _ hat _ _
    refine ⟨[], [], done, a, ?_⟩
    rw [pickHaveL1]
    split_ifs with h
    · exact ⟨_, idx, rfl, rfl, rfl, hat, .inl rfl, fun _ _ _ _ h1 h2 => by omega⟩
    · exact ⟨st.l0Largest, idx, rfl, rfl, rfl, hat, .inl rfl, fun _ _ _ _ h1 h2 => by omega⟩
  | cons c cs ih =>
  intro done a st idx hsize hat hgo hsorted
  obtain ⟨hhead, htail⟩ := pairwise_cons.mp hsorted
  have hac := hhead c (.head _)
  obtain ⟨idx', stopped, hadv, hmoved⟩ :=
    advanceRange_spec (l1Ranges files) c.userKey (stop ≤ st.allComptionSize) _ idx rfl
  -- with the size reached the index is odd and does not move
  have hstay : stop ≤ st.allComptionSize → idx % 2 = 1 ∧ idx' = idx := by
    intro hfull
    have hodd : idx % 2 = 1 := by
      by_contra hne
      exact hgo ⟨by omega, hfull⟩
    refine ⟨hodd, ?_⟩
    rcases Nat.eq_or_lt_of_le hmoved.le with h | h
    · exact h.symm
    · have := (hmoved.passes idx le_rfl h).2 (decide_eq_true hfull)
      omega
  rw [pickHaveL1, hadv]
  cases stopped with
  | true =>
    obtain ⟨hfull, -, hpass⟩ := hmoved.fileEnd rfl
    obtain ⟨hodd, heq⟩ := hstay (of_decide_eq_true hfull)
    subst heq
    refine ⟨[], c :: cs, done, a, _, idx', rfl, rfl, rfl, hat, .inr ?_,
      fun _ _ _ _ h1 h2 => by omega⟩
    exact (canEnd_iff hs hat).mpr
      ⟨hsize ▸ of_decide_eq_true hfull, fun _ => ⟨c, rfl, hpass⟩⟩
  | false =>
  have hatc : At (l1Ranges files) c.userKey idx' :=
    ⟨hmoved.below fun j hj => (hat.1 j hj).mono hac, hmoved.ahead rfl⟩
  -- the loop could not end behind `a`
  have hnot : ¬ CanEnd stop files done a (c :: cs) := by
    intro hcan
    obtain ⟨hfull, hnext⟩ := (canEnd_iff hs hat).mp hcan
    obtain ⟨hodd, heq⟩ := hstay (hsize ▸ hfull)
    obtain ⟨b, hb, hpass⟩ := hnext hodd
    have hcb : c = b := Option.some.inj hb
    exact hmoved.ahead rfl (heq ▸ hcb ▸ hpass)
  have hfirst : ∀ pre' c' post', done ++ a :: c :: cs = pre' ++ c' :: post' →
      pre'.length = done.length → ¬ CanEnd stop files pre' c' post' := by
    intro pre' c' post' heq hlen
    obtain ⟨rfl, hrest⟩ := append_inj heq hlen.symm
    obtain ⟨rfl, rfl⟩ := List.cons.inj hrest
    exact hnot
  have hsize' : (st.add c).allComptionSize = cellsSize ((done ++ [a]) ++ [c]) := by
    simp only [PickState.add, hsize, cellsSize_append, cellsSize_cons, cellsSize_nil]
    omega
  by_cases hstop : idx' % 2 = 0 ∧ stop ≤ (st.add c).allComptionSize
  · refine ⟨[c], cs, done ++ [a], c, some c.keyMeta.key, idx', rfl, by simp,
      by simp only [if_pos hstop]; rfl, hatc, .inr ?_, ?_⟩
    · refine (canEnd_iff hs hatc).mpr ⟨hsize' ▸ hstop.2, ?_⟩
      intro hodd
      omega
    · intro pre' c' post' heq h1 h2
      rw [length_append, length_singleton] at h2
      exact hfirst pre' c' post' heq (by omega)
  simp only [if_neg hstop]
  obtain ⟨taken, left, pre, d, x, idx'', hsplit, hpre, hres, hatd, hend, hbefore⟩ :=
    ih (done ++ [a]) c (st.add c) idx' hsize' hatc hstop htail
  refine ⟨c :: taken, left, pre, d, x, idx'', by rw [hsplit]; rfl, ?_, hres, hatd, hend, ?_⟩
  · rw [← hpre, append_assoc]
    rfl
  intro pre' c' post' heq h1 h2
  rcases Nat.eq_or_lt_of_le h1 with h | h
  · exact hfirst pre' c' post' heq h.symm
  refine hbefore pre' c' post' ?_ ?_ h2
  · rw [← heq, append_assoc]
    rfl
  · rw [length_append, length_singleton]
    omega

/-- **WHERE THE LOOP ENDS**: it takes the cells up to the first one at which it may
    end, and stands at the bound of that cell. -/
theorem pickHaveL1_endsAt (hs : LevelSorted files) (n : Nat) {lo : Cell K} {cs : List (Cell K)}
    (hsorted : (lo :: cs).Pairwise (fun a b => a.userKey ≤ b.userKey))
    (hfirst : ∀ f ∈ files.head?, lo.userKey ≤ f.largest.userKey) :
    ∃ pre a post x idx, EndsAt stop files (lo :: cs) pre a post ∧
      At (l1Ranges files) a.userKey idx ∧
      pickHaveL1 (l1Ranges files) stop (PickState.start n (lo :: cs)) 0 (lo :: cs)
        = ({ (PickState.start n (lo :: cs)).addAll (pre ++ [a]) with l0Largest := x }, idx) := by
  obtain ⟨idx', stopped, hadv, hmoved⟩ :=
    advanceRange_spec (l1Ranges files) lo.userKey
      (stop ≤ (PickState.start n (lo :: cs)).allComptionSize) _ 0 rfl
  rw [pickHaveL1, hadv]
  cases stopped with
  | true =>
    -- the first cell is not behind the first file
    obtain ⟨hfull, hodd, hpass⟩ := hmoved.fileEnd rfl
    have hone : idx' = 1 := by
      by_contra hne
      have := (hmoved.passes 1 (by omega) (by omega)).2 hfull
      omega
    subst hone
    cases files with
    | nil =>
      obtain ⟨r, hr, -⟩ := hpass
      exact nomatch hr
    | cons f fs =>
      have hlt := (passes_one _ _ (l1Ranges fs) _).mp hpass
      exact absurd (hfirst f rfl) (not_le.mpr hlt)
  | false =>
  have hat : At (l1Ranges files) lo.userKey idx' :=
    ⟨hmoved.below fun j hj => absurd hj (Nat.not_lt_zero j), hmoved.ahead rfl⟩
  have hsize : ((PickState.start n (lo :: cs)).add lo).allComptionSize
      = cellsSize (([] : List (Cell K)) ++ [lo]) := by
    simp [PickState.start, PickState.add]
  by_cases hstop : idx' % 2 = 0 ∧
      stop ≤ ((PickState.start n (lo :: cs)).add lo).allComptionSize
  · refine ⟨[], lo, cs, some lo.keyMeta.key, idx', ⟨rfl, .inr ?_, ?_⟩, hat,
      by simp only [if_pos hstop]; rfl⟩
    · refine (canEnd_iff hs hat).mpr ⟨hsize ▸ hstop.2, ?_⟩
      intro hodd
      omega
    · intro pre' a' post' _ hlt
      exact absurd hlt (Nat.not_lt_zero _)
  · simp only [if_neg hstop]
    obtain ⟨taken, left, pre, c, x, idx, hsplit, hpre, hres, hatc, hend, hbefore⟩ :=
      pickHaveL1_from hs cs [] lo _ idx' hsize hat hstop hsorted
    refine ⟨pre, c, left, x, idx, ⟨?_, hend, ?_⟩, hatc, ?_⟩
    · rw [hsplit, show lo :: (taken ++ left) = ([] ++ lo :: taken) ++ left from rfl, hpre,
        append_assoc]
      rfl
    · intro pre' a' post' heq hlt
      exact hbefore pre' a' post' heq (Nat.zero_le _) hlt
    · rw [hres, ← hpre]
      rfl

end Loop

/-- The files that are taken with a key, one by one. -/
theorem mem_filesUpTo_iff (k : K) {files : List (FileMetaData K)} (hs : Level1 files)
    (g : FileMetaData K) :
    g ∈ filesUpTo k files ↔ g ∈ files ∧ g.smallest.userKey ≤ k ∧ ∀ h ∈ files, h.largest.rank <
      g.smallest.rank → h.largest.userKey < k := by
  have hfirst : ∀ {f : FileMetaData K} {fs}, Level1 (f :: fs) →
      ∀ h ∈ f :: fs, ¬ h.largest.rank < f.smallest.rank := by
    intro f fs hs
    have hself := hs.bounds f (.head _)
    refine forall_mem_cons.mpr ⟨not_lt.mpr hself, fun h hh => not_lt.mpr ?_⟩
    have hfh := (pairwise_cons.mp hs.disjoint).1 h hh
    exact hself.trans (hfh.le.trans (hs.bounds h (.tail f hh)))
  fun_induction filesUpTo k files with
  | case1 => exact ⟨nofun, (fun h => nomatch h.1)⟩
  | case2 f fs hsk ih =>
    have ih := ih (hs.sublist (sublist_cons_self f fs))
    rw [mem_cons]
    constructor
    · rintro (rfl | hmem)
      · exact ⟨.head _, hsk, fun h hh hlt => absurd hlt (hfirst hs h hh)⟩
      split_ifs at hmem with hlk
      · obtain ⟨hg, hgk, hbefore⟩ := ih.mp hmem
        exact ⟨.tail f hg, hgk, forall_mem_cons.mpr ⟨fun _ => hlk, hbefore⟩⟩
      · exact nomatch hmem
    · rintro ⟨hg, hgk, hbefore⟩
      refine (mem_cons.mp hg).imp_right fun hg => ?_
      rw [if_pos (hbefore f (.head _) ((pairwise_cons.mp hs.disjoint).1 g hg))]
      exact ih.mpr ⟨hg, hgk, (forall_mem_cons.mp hbefore).2⟩
  | case3 f fs hsk =>
    refine ⟨nofun, ?_⟩
    rintro ⟨hg, hgk, -⟩
    -- the later files begin even later
    rcases mem_cons.mp hg with rfl | hg'
    · exact absurd hgk hsk
    · exact absurd (le_trans (hs.userKey_le (.head _))
        ((hs.levelSorted.le_of_mem hg').trans hgk)) hsk

/-! ## The pick -/

instance (column : List (Cell K)) (f : FileMetaData K) : Decidable (Touches column f) :=
  inferInstanceAs (Decidable (∃ lo ∈ column, ∃ hi ∈ column, _))

/-- The level-1 files that overlap the column. -/
def touching (column : List (Cell K)) (level1 : List (FileMetaData K)) :
    List (FileMetaData K) :=
  level1.filter (fun f => Touches column f)

variable {level1 : List (FileMetaData K)}

theorem mem_touching_iff : f ∈ touching column level1 ↔ f ∈ level1 ∧ Touches column f := by
  rw [touching, mem_filter, decide_eq_true_eq]

/-- The last chosen cell of a pick, with the column in front of it and behind it:
    by size alone where no level-1 file overlaps the column. -/
structure LastChosen (opts : NvmCfOptions) (level1 : List (FileMetaData K))
    (column pre : List (Cell K)) (a : Cell K) (post : List (Cell K)) : Prop where
  split : column = pre ++ a :: post
  alone : touching column level1 = [] →
    ShortestColumn (compactionSizeStop opts.columnCompactionNoL1SelectL0 opts.targetFileSizeBase)
      column (pre ++ [a])
  along : touching column level1 ≠ [] →
    EndsAt (compactionSizeStop opts.columnCompactionHaveL1SelectL0 opts.targetFileSizeBase)
      (touching column level1) column pre a post

theorem LastChosen.unique {opts : NvmCfOptions} {pre' post' : List (Cell K)} {a' : Cell K}
    (h : LastChosen opts level1 column pre a post)
    (h' : LastChosen opts level1 column pre' a' post') : a = a' := by
  by_cases hnone : touching column level1 = []
  · have heq := (h.alone hnone).unique (h'.alone hnone)
    exact (append_inj' heq rfl).2 |> singleton_inj.mp
  · exact ((h.along hnone).unique (h'.along hnone)).2.1

theorem LastChosen.eq_append {opts : NvmCfOptions} (h : LastChosen opts level1 column pre a post) :
    column = (pre ++ [a]) ++ post := by
  rw [h.split, append_cons]

theorem LastChosen.mem_column {opts : NvmCfOptions} {c : Cell K}
    (h : LastChosen opts level1 column pre a post) (hc : c ∈ pre ++ [a]) : c ∈ column :=
  h.eq_append ▸ mem_append_left post hc

/-- The last chosen cell has the largest chosen key. -/
theorem le_last_of_mem {c : Cell K} (hsorted : column.Pairwise (fun a b => a.userKey ≤ b.userKey))
    (hsplit : column = pre ++ a :: post) (hc : c ∈ pre ++ [a]) : c.userKey ≤ a.userKey := by
  rw [hsplit] at hsorted
  rcases mem_append.mp hc with hc | hc
  · exact (pairwise_append.mp hsorted).2.2 c hc a (.head _)
  · exact (congrArg Cell.userKey (mem_singleton.mp hc)).le

section Pick

variable {sst : SstableMetadata K} {vs : VersionStorageInfo K} {rows : List (FileMetaData K)}

/-- **ONE PICK**: an initial segment of the column, with the level-1 files up to its
    last cell. -/
theorem pickCells_lastChosen (opts : NvmCfOptions) (hwf : Level0 sst rows) (hne : rows ≠ [])
    (hl1 : LevelSorted vs.level1) :
    ∃ l1 sm x pre a post,
      pickCells opts vs (rows.map (entryOf sst)) (rows.map (·.firstKeyIndex))
        = some (cutItem sst vs rows l1 sm x (pre ++ [a])) ∧
      l1 = filesUpTo a.userKey (touching (cellsOf sst rows) vs.level1) ∧
      LastChosen opts vs.level1 (cellsOf sst rows) pre a post := by
  obtain ⟨lo, cs, hlo, hfirst⟩ := exists_first hwf hne
  obtain ⟨hi, hhi, hlast, hmax⟩ := exists_last hwf hne
  have hover : getOverlappingInputs vs.level1 lo.keyMeta.key hi.keyMeta.key
      = touching (cellsOf sst rows) vs.level1 := by
    rw [getOverlappingInputs_eq_filter hl1, touching]
    refine filter_congr ?_
    intro f _
    exact decide_eq_decide.mpr (overlaps_iff_touches hwf hlo hhi hmax f)
  have hsorted := cellsOf_sorted hwf
  have hlen : (rows.map (entryOf sst)).length = rows.length := length_map ..
  have hcells : cells (rows.map (entryOf sst)) (rows.map (·.firstKeyIndex))
      = cellsOf sst rows := rfl
  simp only [pickCells, hfirst, hlast, hover, hcells, hlen]
  cases htouch : touching (cellsOf sst rows) vs.level1 with
  | nil =>
    rw [hlo] at htouch ⊢
    obtain ⟨taken, x, hshort, hres, -⟩ := pickNoL1_start
      (compactionSizeStop opts.columnCompactionNoL1SelectL0 opts.targetFileSizeBase)
      rows.length lo cs
    obtain ⟨rest, hrest⟩ := hshort.isPrefix
    obtain ⟨pre, a, hconcat⟩ : ∃ pre a, lo :: taken = pre ++ [a] := by
      rcases eq_nil_or_concat (lo :: taken) with hnil | ⟨pre, a, h⟩
      · cases hnil
      · exact ⟨pre, a, by rwa [concat_eq_append] at h⟩
    refine ⟨[], some lo.keyMeta.key, x, pre, a, rest, ?_, rfl, ?_, ?_, ?_⟩
    · rw [hres, hconcat, cutItem, hlo]
    · rw [← hrest, hconcat, append_assoc]
      rfl
    · intro _
      exact hconcat ▸ hshort
    · exact fun hne => absurd htouch hne
  | cons g gs =>
  have hgs : LevelSorted (g :: gs) := hl1.sublist (htouch ▸ filter_sublist)
  have hg : Overlaps lo.keyMeta.key hi.keyMeta.key g := by
    have hmem : g ∈ touching (cellsOf sst rows) vs.level1 := by
      rw [htouch]
      exact .head _
    exact (overlaps_iff_touches hwf hlo hhi hmax g).mpr (mem_touching_iff.mp hmem).2
  rw [hlo] at hsorted ⊢
  have hfront : ∀ f ∈ (g :: gs).head?, lo.userKey ≤ f.largest.userKey := by
    intro f hf
    have hgf : g = f := Option.some.inj hf
    exact hgf ▸ sstableKeyCompare_le_userKey hg.1
  obtain ⟨pre, a, post, x, idx, hends, hat, hres⟩ := @pickHaveL1_endsAt K _ (g :: gs)
    (compactionSizeStop opts.columnCompactionHaveL1SelectL0 opts.targetFileSizeBase) hgs
    rows.length lo cs hsorted hfront
  rw [hlo] at htouch
  refine ⟨(g :: gs).take ((idx + 1) / 2), some lo.keyMeta.key, x, pre, a, post, ?_, ?_,
    hends.split, ?_, ?_⟩
  · dsimp only
    rw [hres, cutItem, hlo]
  · exact take_eq_filesUpTo _ _ _ hat
  · intro hnone
    rw [htouch] at hnone
    cases hnone
  · intro _
    rw [htouch]
    exact hends

/-- What a compaction of a column needs of the level-1 files it takes: every file
    that holds a chosen key, and no file that shares a key with one it leaves. -/
structure CleanCut (level1 taken : List (FileMetaData K)) (entries : List (L0Entry K)) : Prop where
  covered : ∀ g ∈ level1, ∀ x ∈ entries, HoldsKey g x.userKey → g ∈ taken
  apart : ∀ g ∈ level1, g ∉ taken → ∀ f ∈ taken, ∀ k, ¬ (HoldsKey f k ∧ HoldsKey g k)

/-- Two level-1 files meet in one user key where the selection ends: the first one
    lies around the last chosen cell, and is the last file that is taken; or the
    second one is the first that is taken, and the first one ends before the column. -/
def MeetsAtEnd (stop : Nat) (level1 : List (FileMetaData K)) (column : List (Cell K)) : Prop :=
  ∃ pre a post, EndsAt stop (touching column level1) column pre a post ∧
    ∃ f ∈ level1, ∃ g ∈ level1, f.largest.rank < g.smallest.rank ∧
      f.largest.userKey = g.smallest.userKey ∧
      ((Touches column f ∧ Within f a.userKey ∧
          (f.largest.packed ≠ rangeTombstoneSentinel ∨ f.largest.userKey = a.userKey)) ∨
        (¬ Touches column f ∧ Touches column g ∧ g.smallest.userKey ≤ a.userKey ∧
          f.largest.packed ≠ rangeTombstoneSentinel))

/-- A file that holds a key between two cells overlaps the column. -/
theorem touches_of_holds {c d : Cell K} (hc : c ∈ column) (hd : d ∈ column)
    (hpoint : d.keyMeta.key.type ≠ .rangeDeletion) {k : K} (h : HoldsKey g k) (hck : c.userKey ≤ k)
    (hkd : k ≤ d.userKey) : Touches column g := by
  refine ⟨c, hc, d, hd, (sstableKeyCompare_le_iff _ _).mpr ?_,
    (sstableKeyCompare_le_iff _ _).mpr ?_⟩
  · refine boundRank_le_of_ne (hck.trans h.within.2) ?_
    intro heq
    exact h.ne_sentinel (le_antisymm h.within.2 (heq ▸ hck))
  · exact boundRank_le_of_point hpoint (h.1.trans hkd)

section Cut

variable {stop : Nat} {level1 : List (FileMetaData K)} {column pre post : List (Cell K)}
  {a : Cell K} {entries : List (L0Entry K)}

section

variable (hl1 : Level1 level1) (hg : g ∈ touching column level1)
  (hga : g.smallest.userKey ≤ a.userKey) (hgt : g ∉ filesUpTo a.userKey (touching column level1))
include hl1 hg hga hgt

/-- A file that is left although it begins at or before the last chosen cell stands
    behind one that does not end before it. -/
theorem exists_before_of_not_taken :
    ∃ h ∈ touching column level1, h.largest.rank < g.smallest.rank ∧
      a.userKey ≤ h.largest.userKey := by
  by_contra hcon
  refine hgt ((mem_filesUpTo_iff _ (hl1.sublist filter_sublist) g).mpr ⟨hg, hga, ?_⟩)
  intro h hh hlt
  by_contra hle
  exact hcon ⟨h, hh, hlt, not_lt.mp hle⟩

/-- Such a file begins with the last chosen key. -/
theorem smallest_of_not_taken :
    ∃ h ∈ touching column level1, h.largest.rank < g.smallest.rank ∧
      h.largest.userKey = a.userKey ∧ g.smallest.userKey = a.userKey := by
  obtain ⟨h, hh, hlt, hle⟩ := exists_before_of_not_taken hl1 hg hga hgt
  have hhg := userKey_le_of_rank_le hlt.le
  exact ⟨h, hh, hlt, le_antisymm (hhg.trans hga) hle, le_antisymm hga (hle.trans hhg)⟩

end

section

variable (hl1 : Level1 level1) (hpoints : ∀ c ∈ column, c.keyMeta.key.type ≠ .rangeDeletion)
include hl1 hpoints

/-- **TWO FILES THAT MEET** at an end of the selection spoil the cut. -/
theorem not_cleanCut_of_meets (hends : EndsAt stop (touching column level1) column pre a post)
    (hentry : ∃ x ∈ entries, x.userKey = a.userKey) (hmeets : MeetsAtEnd stop level1 column) :
    ¬ CleanCut level1 (filesUpTo a.userKey (touching column level1)) entries := by
  intro hclean
  have hsub : Level1 (touching column level1) := hl1.sublist filter_sublist
  have ha : a ∈ column := by
    rw [hends.split]
    exact mem_append_right pre (.head _)
  obtain ⟨pre', a', post', hends', f, hf, g, hg, hlt, hmeet, hor⟩ := hmeets
  obtain ⟨rfl, rfl, rfl⟩ := hends.unique hends'
  obtain ⟨x, hx, hxa⟩ := hentry
  rcases hor with ⟨htouch, hin, hend⟩ | ⟨hno, htouch, hga, hsent⟩
  · have hfmem := mem_touching_iff.mpr ⟨hf, htouch⟩
    by_cases hft : f ∈ filesUpTo a.userKey (touching column level1)
    · -- `f` is the last file that is taken
      have hgt : g ∉ filesUpTo a.userKey (touching column level1) := by
        intro hmem
        obtain ⟨-, -, hbefore⟩ := (mem_filesUpTo_iff _ hsub g).mp hmem
        exact absurd hin.2 (not_le.mpr (hbefore f hfmem hlt))
      have hgk := hl1.holds_smallest hg
      rcases hend with hsent | heq
      · refine hclean.apart g hg hgt f hft g.smallest.userKey ⟨⟨?_, .inr ⟨hmeet.symm, hsent⟩⟩, hgk⟩
        exact hmeet ▸ hl1.userKey_le hf
      refine hgt (hclean.covered g hg x hx ?_)
      rw [hxa, ← heq, hmeet]
      exact hgk
    · -- a file in front of `f` is the last one, and `f` begins with the chosen key
      obtain ⟨-, -, -, -, hfa⟩ := smallest_of_not_taken hl1 hfmem hin.1 hft
      refine hft (hclean.covered f hf x hx ?_)
      rw [hxa, ← hfa]
      exact hl1.holds_smallest hf
  · have hgmem := mem_touching_iff.mpr ⟨hg, htouch⟩
    have hft : f ∉ filesUpTo a.userKey (touching column level1) := by
      intro hmem
      exact hno (mem_touching_iff.mp ((mem_filesUpTo_iff _ hsub f).mp hmem).1).2
    have hgt : g ∈ filesUpTo a.userKey (touching column level1) := by
      refine (mem_filesUpTo_iff _ hsub g).mpr ⟨hgmem, hga, ?_⟩
      intro h hh hhg
      by_contra hle
      -- otherwise all the keys are the last chosen one, and `f` overlaps the column
      have heq : a.userKey = f.largest.userKey := by
        refine le_antisymm ?_ (hmeet ▸ hga)
        exact (not_lt.mp hle).trans (hmeet ▸ userKey_le_of_rank_le hhg.le)
      exact hno (touches_of_holds ha ha (hpoints a ha)
        ⟨heq ▸ hl1.userKey_le hf, .inr ⟨heq, hsent⟩⟩ le_rfl le_rfl)
    refine hclean.apart f hf hft g hgt g.smallest.userKey ⟨hl1.holds_smallest hg, ?_⟩
    exact ⟨hmeet ▸ hl1.userKey_le hf, .inr ⟨hmeet.symm, hsent⟩⟩

/-- **THE OTHER CUTS** are clean. -/
theorem cleanCut_of_not_meets (hsorted : column.Pairwise (fun a b => a.userKey ≤ b.userKey))
    (hends : EndsAt stop (touching column level1) column pre a post)
    (hentries : ∀ x ∈ entries, ∃ c ∈ pre ++ [a], c.userKey = x.userKey)
    (hmeets : ¬ MeetsAtEnd stop level1 column) :
    CleanCut level1 (filesUpTo a.userKey (touching column level1)) entries := by
  have hsub : Level1 (touching column level1) := hl1.sublist filter_sublist
  have ha : a ∈ column := by
    rw [hends.split]
    exact mem_append_right pre (.head _)
  constructor
  · intro g hg x hx hhold
    by_contra hgt
    obtain ⟨c, hc, hcx⟩ := hentries x hx
    have hcmem : c ∈ column := by
      rw [hends.split, append_cons]
      exact mem_append_left post hc
    rw [← hcx] at hhold
    have htouch := touches_of_holds hcmem hcmem (hpoints c hcmem) hhold le_rfl le_rfl
    obtain ⟨h, hh, hlt, hha, hga⟩ := smallest_of_not_taken hl1 (mem_touching_iff.mpr ⟨hg, htouch⟩)
      (hhold.1.trans (le_last_of_mem hsorted hends.split hc)) hgt
    refine hmeets ⟨pre, a, post, hends, h, (mem_touching_iff.mp hh).1, g, hg, hlt,
      hha.trans hga.symm, .inl ⟨(mem_touching_iff.mp hh).2, ⟨?_, hha.symm.le⟩, .inr hha⟩⟩
    exact hha ▸ hsub.userKey_le hh
  rintro g hg hgt f hft k ⟨hfk, hgk⟩
  obtain ⟨hfmem, hfa, hfbefore⟩ := (mem_filesUpTo_iff _ hsub f).mp hft
  obtain ⟨hf, hftouch⟩ := mem_touching_iff.mp hfmem
  have hne : f ≠ g := fun heq => hgt (heq ▸ hft)
  rcases hl1.apart hf hg hne with hlt | hlt
  · -- `g` stands behind `f`, and begins with the key at which `f` ends
    have hfg := userKey_le_of_rank_le hlt.le
    have hfl : k = f.largest.userKey := le_antisymm hfk.within.2 (hfg.trans hgk.1)
    have hgs : f.largest.userKey = g.smallest.userKey :=
      le_antisymm hfg (hfl ▸ hgk.1)
    have haf : a.userKey ≤ f.largest.userKey := by
      by_contra hcon
      have hfa' := not_le.mp hcon
      have htouch : Touches column g := by
        obtain ⟨lo, hlo, hi, hhi, h1, h2⟩ := hftouch
        refine ⟨lo, hlo, a, ha, (sstableKeyCompare_le_iff _ _).mpr ?_,
          (sstableKeyCompare_le_iff _ _).mpr ?_⟩
        · exact le_trans ((sstableKeyCompare_le_iff _ _).mp h1)
            ((hl1.boundRank_le_next hg hlt).trans (hl1.boundRank_le hg))
        · exact boundRank_le_of_point (hpoints a ha) (hgs ▸ hfa'.le)
      obtain ⟨-, -, -, -, hga⟩ := smallest_of_not_taken hl1 (mem_touching_iff.mpr ⟨hg, htouch⟩)
        (hgs ▸ hfa'.le) hgt
      exact absurd (hgs.trans hga) (ne_of_lt hfa')
    exact hmeets ⟨pre, a, post, hends, f, hf, g, hg, hlt, hgs,
      .inl ⟨hftouch, ⟨hfa, haf⟩, .inl (hfk.ne_sentinel hfl)⟩⟩
  · -- `g` stands in front of `f`, so it ends before the column
    have hgf := userKey_le_of_rank_le hlt.le
    have hgl : k = g.largest.userKey := le_antisymm hgk.within.2 (hgf.trans hfk.1)
    have hfs : g.largest.userKey = f.smallest.userKey := le_antisymm hgf (hgl ▸ hfk.1)
    have hno : ¬ Touches column g := by
      intro htouch
      obtain ⟨h, hh, hhlt, hle⟩ := exists_before_of_not_taken hl1
        (mem_touching_iff.mpr ⟨hg, htouch⟩) ((hl1.userKey_le hg).trans (hgf.trans hfa)) hgt
      have hhf := hhlt.trans_le ((hl1.bounds g hg).trans hlt.le)
      exact absurd hle (not_le.mpr (hfbefore h hh hhf))
    exact hmeets ⟨pre, a, post, hends, g, hg, f, hf, hlt, hfs,
      .inr ⟨hno, hftouch, hfa, hgk.ne_sentinel hgl⟩⟩

end

end Cut

/-- A pick as a whole: its entries are those of the cells up to the last chosen one. -/
theorem pick_lastChosen (opts : NvmCfOptions) (hwf : Level0 sst vs.level0)
    (hne : vs.level0 ≠ []) (hl1 : LevelSorted vs.level1) :
    ∃ item pre a post, (pickColumnCompaction opts sst vs).2 = some item ∧
      item.l1CompactionFiles = filesUpTo a.userKey
        (touching (cellsOf sst (columnFiles sst vs.level0)) vs.level1) ∧
      LastChosen opts vs.level1 (cellsOf sst (columnFiles sst vs.level0)) pre a post ∧
      ∀ y, y ∈ itemEntries item ↔ ∃ c ∈ pre ++ [a], toEntry (columnFiles sst vs.level0) c = y := by
  obtain ⟨-, -, hrows, -⟩ := columnFiles_suffix sst hwf.nodup hne
  obtain ⟨l1, sm, x, pre, a, post, hpick, hl1eq, hlast⟩ :=
    pickCells_lastChosen opts (Level0.columnFiles hwf) hrows hl1
  refine ⟨_, pre, a, post, (pickColumnCompaction_eq opts hwf hne).trans hpick, hl1eq, hlast, ?_⟩
  exact mem_itemEntries_iff_taken hlast.eq_append
    (fun f hf => find?_number_eq hwf.nodup (columnFiles_subset hf))

/-- **WHEN THE LEVEL-1 FILES ARE A CLEAN CUT**: exactly when no two of them meet in
    one user key where the selection ends. -/
theorem pickColumnCompaction_cleanCut_iff (opts : NvmCfOptions) (hwf : Level0 sst vs.level0)
    (hne : vs.level0 ≠ []) (hl1 : Level1 vs.level1) :
    ∃ item, (pickColumnCompaction opts sst vs).2 = some item ∧
      (CleanCut vs.level1 item.l1CompactionFiles (itemEntries item) ↔
        ¬ MeetsAtEnd (compactionSizeStop opts.columnCompactionHaveL1SelectL0
          opts.targetFileSizeBase) vs.level1 (cellsOf sst (columnFiles sst vs.level0))) := by
  have hcol := Level0.columnFiles hwf
  obtain ⟨item, pre, a, post, hpick, hfiles, hlast, hmem⟩ := pick_lastChosen opts hwf hne
      hl1.levelSorted
  refine ⟨item, hpick, ?_⟩
  rw [hfiles]
  have hpoints : ∀ c ∈ cellsOf sst (columnFiles sst vs.level0),
      c.keyMeta.key.type ≠ .rangeDeletion := fun c hc => point_of_mem_cellsOf hcol hc
  by_cases hnone : touching (cellsOf sst (columnFiles sst vs.level0)) vs.level1 = []
  · -- no file overlaps the column
    have hno : ∀ g ∈ vs.level1, ¬ Touches (cellsOf sst (columnFiles sst vs.level0)) g := by
      intro g hg htouch
      have := mem_touching_iff.mpr ⟨hg, htouch⟩
      rw [hnone] at this
      exact nomatch this
    refine iff_of_true ⟨?_, ?_⟩ ?_
    · intro g hg y hy hhold
      obtain ⟨c, hc, rfl⟩ := (hmem y).mp hy
      have hcmem := hlast.mem_column hc
      exact absurd (touches_of_holds hcmem hcmem (hpoints c hcmem) hhold le_rfl le_rfl)
        (hno g hg)
    · intro g _ _ f hf
      rw [hnone] at hf
      exact nomatch hf
    · rintro ⟨_, _, _, -, f, hf, g, hg, -, -, ⟨htouch, -⟩ | ⟨-, htouch, -⟩⟩
      · exact hno f hf htouch
      · exact hno g hg htouch
  · have hends := hlast.along hnone
    constructor
    · intro hclean hmeets
      refine not_cleanCut_of_meets hl1 hpoints hends ?_ hmeets hclean
      exact ⟨toEntry (columnFiles sst vs.level0) a, (hmem _).mpr ⟨a, by simp, rfl⟩, rfl⟩
    · refine cleanCut_of_not_meets hl1 hpoints (cellsOf_sorted hcol) hends ?_
      intro y hy
      obtain ⟨c, hc, rfl⟩ := (hmem y).mp hy
      exact ⟨c, hc, rfl⟩

end Pick

/-! ## Two files that meet

    One row with the keys 25 and 50, and two level-1 files: the first one ends with
    version 5 of key 30, the second one begins with version 3 of it.  Cell 25
    reaches the size, and cell 50 is behind the first file. -/

def meetDirectory : SstableMetadata Nat :=
  { files :=
      [{ filenum := 1, sstableIndex := 0
         keysMeta := [{ key := ⟨25, 9, .value⟩, offset := 0, size := 40 },
                      { key := ⟨50, 9, .value⟩, offset := 40, size := 40 }] }] }

def meetVersion : VersionStorageInfo Nat :=
  { level0 :=
      [{ number := 1, fileSize := 80, smallest := ⟨25, 9, .value⟩, largest := ⟨50, 9, .value⟩
         smallestSeqno := 9, largestSeqno := 9, isNvmLevel0 := true, keysNum := 2 }]
    level1 :=
      [{ number := 2, fileSize := 100, smallest := ⟨20, 1, .value⟩, largest := ⟨30, 5, .value⟩
         smallestSeqno := 1, largestSeqno := 5 },
       { number := 3, fileSize := 100, smallest := ⟨30, 3, .value⟩, largest := ⟨60, 2, .value⟩
         smallestSeqno := 2, largestSeqno := 3 }] }

theorem meetVersion_level0 : Level0 meetDirectory meetVersion.level0 where
  nodup := by decide
  found := by decide
  sorted := by decide
  remaining := by decide
  points := by decide

theorem meetVersion_level1 : Level1 meetVersion.level1 where
  bounds := by decide
  disjoint := by decide
  starts := by decide

theorem pickColumnCompaction_cleanCut_iff_meetVersion :
    ∃ item, (pickColumnCompaction splitOptions meetDirectory meetVersion).2 = some item ∧
      (CleanCut meetVersion.level1 item.l1CompactionFiles (itemEntries item) ↔
        ¬ MeetsAtEnd 30 meetVersion.level1
          (cellsOf meetDirectory (columnFiles meetDirectory meetVersion.level0))) :=
  pickColumnCompaction_cleanCut_iff splitOptions meetVersion_level0 (by decide)
    meetVersion_level1

/-- The pick takes the first file and leaves the second, with an older version of
    key 30 in it. -/
theorem pickColumnCompaction_leaves_shared_key :
    Level0 meetDirectory meetVersion.level0 ∧ Level1 meetVersion.level1 ∧
      ∃ item, (pickColumnCompaction splitOptions meetDirectory meetVersion).2 = some item ∧
        ¬ CleanCut meetVersion.level1 item.l1CompactionFiles (itemEntries item) := by
  refine ⟨meetVersion_level0, meetVersion_level1, _, rfl, ?_⟩
  intro hclean
  refine hclean.apart meetVersion.level1[1] (by decide) (by decide) meetVersion.level1[0]
    (by decide) 30 ⟨⟨by decide, by decide⟩, ⟨by decide, by decide⟩⟩

end ColumnLevel1
