import MatrixKV.ColumnLevel1Proofs

/-! # Does a column split a user key?

    A column moves newer versions of a key to level 1 while the rows below keep
    what was not chosen; if a chosen key has a version that stays behind, the
    version left in level 0 hides the newer one in level 1.

    * Without overlapping level-1 files the selection is closed under user key.
    * With overlapping files the loop stops right after the cell that reaches
      the size when that cell lies between two files, and does not look at the
      next cell.  `KeySplit` says when the next cell has the same user key.
    * **`pickColumnCompaction_closed_iff`**: a pick is closed under user key
      exactly when `KeySplit` does not hold. -/

namespace ColumnClosure

open List ColumnRows DbFormat SstableMeta KeysMerge Overlap ColumnPick ColumnEntries
  ColumnPrefix ColumnLevel1

variable {K : Type} [LinearOrder K]

/-- Every entry with the user key of a chosen entry is chosen. -/
def ClosedUnderUserKey (chosen all : List (L0Entry K)) : Prop :=
  ∀ a ∈ chosen, ∀ b ∈ all, a.userKey = b.userKey → b ∈ chosen

instance (chosen all : List (L0Entry K)) : Decidable (ClosedUnderUserKey chosen all) :=
  inferInstanceAs (Decidable (∀ a ∈ chosen, ∀ b ∈ all, _ → _))

/-- Some level-1 file overlaps the column, the cell `a` at which the column first
    reaches `stop` bytes lies in none of the overlapping files, and the cell
    behind it has the same user key. -/
def KeySplit (stop : Nat) (level1 : List (FileMetaData K)) (column : List (Cell K)) : Prop :=
  (∃ f ∈ level1, Touches column f) ∧
  ∃ pre a b post, column = pre ++ a :: b :: post ∧ a.userKey = b.userKey ∧
    (pre = [] ∨ cellsSize pre < stop) ∧ stop ≤ cellsSize (pre ++ [a]) ∧
    ∀ f ∈ level1, Touches column f →
      ¬ (f.smallest.userKey ≤ a.userKey ∧ a.userKey ≤ f.largest.userKey)

/-! ## Closure on the cells -/

section Column

variable {sst : SstableMetadata K} {rows : List (FileMetaData K)}

/-- Closure of an item, read on the cells: nothing taken shares its user key with
    a cell that is left. -/
theorem closed_iff_cells (hwf : Level0 sst rows) {item : ColumnCompactionItem K}
    {taken left : List (Cell K)} (hsplit : cellsOf sst rows = taken ++ left)
    (hitem : ∀ x, x ∈ itemEntries item ↔ ∃ c ∈ taken, toEntry rows c = x) :
    ClosedUnderUserKey (itemEntries item) (readable sst rows) ↔
      ∀ a ∈ taken, ∀ b ∈ left, a.userKey ≠ b.userKey := by
  have htaken : ∀ c ∈ taken, c ∈ cellsOf sst rows := fun c hc => by
    rw [hsplit]
    exact mem_append_left _ hc
  have hleft : ∀ c ∈ left, c ∈ cellsOf sst rows := fun c hc => by
    rw [hsplit]
    exact mem_append_right _ hc
  constructor
  · intro hclosed a ha b hb hab
    have hmem := hclosed (toEntry rows a) ((hitem _).mpr ⟨a, ha, rfl⟩) (toEntry rows b)
      ((mem_readable_iff_cell _).mpr ⟨b, hleft b hb, rfl⟩) hab
    obtain ⟨c, hc, hcb⟩ := (hitem _).mp hmem
    have hcb' : c = b := toEntry_inj hwf.nodup (htaken c hc) (hleft b hb) hcb
    exact not_mem_taken_of_mem_left hsplit hb (hcb' ▸ hc)
  intro hsep x hx y hy hxy
  obtain ⟨a, ha, rfl⟩ := (hitem x).mp hx
  obtain ⟨b, hb, rfl⟩ := (mem_readable_iff_cell y).mp hy
  rw [hsplit] at hb
  rcases mem_append.mp hb with hb | hb
  · exact (hitem _).mpr ⟨b, hb, rfl⟩
  · exact absurd hxy (hsep a ha b hb)

/-- In a sorted column a cut separates user keys when it does so at the cut. -/
theorem separated_of_last {taken left : List (Cell K)}
    (hsorted : (taken ++ left).Pairwise (fun a b => a.userKey ≤ b.userKey))
    (hcut : ∀ a ∈ taken.getLast?, ∀ b ∈ left.head?, a.userKey ≠ b.userKey) :
    ∀ a ∈ taken, ∀ b ∈ left, a.userKey ≠ b.userKey := by
  intro a ha b hb heq
  obtain ⟨hs1, hs2, hs3⟩ := pairwise_append.mp hsorted
  obtain ⟨init, l, rfl⟩ : ∃ init l, taken = init ++ [l] := by
    rcases eq_nil_or_concat taken with h | ⟨init, l, h⟩
    · rw [h] at ha
      exact nomatch ha
    · exact ⟨init, l, by simpa using h⟩
  obtain ⟨h, tl, rfl⟩ := exists_cons_of_ne_nil (ne_nil_of_mem hb)
  have hal : a.userKey ≤ l.userKey := by
    rcases mem_append.mp ha with ha | ha
    · exact (pairwise_append.mp hs1).2.2 a ha l (mem_singleton_self l)
    · exact (congrArg Cell.userKey (mem_singleton.mp ha)).le
  have hhb : h.userKey ≤ b.userKey := by
    rcases mem_cons.mp hb with hb | hb
    · exact (congrArg Cell.userKey hb.symm).le
    · exact (pairwise_cons.mp hs2).1 b hb
  have hlh : l.userKey ≤ h.userKey := hs3 l (by simp) h (by simp)
  exact hcut l (by simp) h rfl (le_antisymm hlh (hhb.trans (heq ▸ hal)))

end Column

/-! ## The two selections -/

/-- The selection by size alone ends between two user keys. -/
theorem ShortestColumn.separates {stop : Nat} {cs taken left : List (Cell K)}
    (h : ShortestColumn stop cs taken) (hsplit : cs = taken ++ left)
    (hsorted : cs.Pairwise (fun a b => a.userKey ≤ b.userKey)) :
    ∀ a ∈ taken, ∀ b ∈ left, a.userKey ≠ b.userKey := by
  refine separated_of_last (hsplit ▸ hsorted) ?_
  cases h with
  | all _ =>
    obtain rfl : left = [] := by simpa using hsplit
    nofun
  | cut p hp =>
  intro a ha b hb heq
  obtain ⟨q, c, hq, hkey⟩ := hp.exists_last
  obtain ⟨rest, rfl⟩ := hp.isPrefix
  -- what is left are the cells from the next user key on
  have hleft : left = rest.dropWhile (fun c => p.getLast?.map Cell.userKey = some c.userKey) := by
    rw [append_assoc, append_cancel_left_eq, sameKeyBehind, drop_left] at hsplit
    exact append_cancel_left (hsplit.symm.trans takeWhile_append_dropWhile.symm)
  have hnext := head?_dropWhile_not
    (fun c : Cell K => decide (p.getLast?.map Cell.userKey = some c.userKey)) rest
  rw [← hleft, Option.mem_def.mp hb, hq, getLast?_concat] at hnext
  refine of_decide_eq_false hnext (congrArg some (Eq.trans ?_ heq))
  rcases eq_nil_or_concat (sameKeyBehind p (p ++ rest)) with hnil | ⟨init, l, hl⟩
  · rw [hnil, append_nil, hq, getLast?_concat] at ha
    exact congrArg Cell.userKey (Option.some.inj ha)
  rw [hl, concat_eq_append, ← append_assoc, getLast?_concat] at ha
  obtain rfl : l = a := Option.some.inj ha
  exact (hkey l (by simp [hl])).symm

/-- The selection along the files splits a key exactly where it reaches the size outside
    of them. -/
theorem EndsAt.separates_iff {stop : Nat} {files : List (FileMetaData K)}
    {column pre post : List (Cell K)} {a : Cell K} (h : EndsAt stop files column pre a post)
    (hsorted : column.Pairwise (fun a b => a.userKey ≤ b.userKey)) :
    (∀ c ∈ pre ++ [a], ∀ d ∈ post, c.userKey ≠ d.userKey) ↔
      ¬ ∃ pre a b post, column = pre ++ a :: b :: post ∧ a.userKey = b.userKey ∧
        (pre = [] ∨ cellsSize pre < stop) ∧ stop ≤ cellsSize (pre ++ [a]) ∧
        ∀ f ∈ files, ¬ Within f a.userKey := by
  constructor
  · rintro hsep ⟨pre', a', b, post', hsplit, hab, hpre, hfull, hout⟩
    -- no earlier cell reaches the size, so the selection ends at `a'`
    have hends : EndsAt stop files column pre' a' (b :: post') := by
      refine ⟨hsplit, .inr ⟨hfull, .inl hout⟩, ?_⟩
      intro p c q hpq hlt hcan
      rcases hpre with rfl | hsmall
      · exact absurd hlt (Nat.not_lt_zero _)
      have hp : p ++ [c] <+: pre' := prefix_of_prefix_length_le ⟨q, (append_cons ..).symm⟩
        ⟨a' :: b :: post', hsplit.symm.trans hpq⟩ (by rw [length_append]; exact hlt)
      exact absurd (hcan.1.trans <| cellsSize_le_of_prefix hp) (not_le.mpr hsmall)
    obtain ⟨rfl, rfl, rfl⟩ := h.unique hends
    exact hsep a (by simp) b (.head _) hab
  intro hno
  refine separated_of_last (by rw [append_assoc]; exact h.split ▸ hsorted) ?_
  intro c hc b hb hab
  obtain rfl : a = c := by simpa using hc
  obtain ⟨post', rfl⟩ := head?_eq_some_iff.mp hb
  obtain ⟨hfull, hend⟩ := h.ends.resolve_left (cons_ne_nil _ _)
  have hout : ∀ f ∈ files, ¬ Within f a.userKey := by
    rcases hend with hout | ⟨f, -, hin, d, hd, hlt⟩
    · exact hout
    · obtain rfl : b = d := Option.some.inj hd
      exact absurd (hab ▸ hin.2) (not_le.mpr hlt)
  refine hno ⟨pre, a, b, post', h.split, hab, ?_, hfull, hout⟩
  rcases eq_nil_or_concat pre with hnil | ⟨init, c, hpre⟩
  · exact .inl hnil
  refine .inr (not_le.mp fun hle => ?_)
  rw [concat_eq_append] at hpre
  have hsplit := h.split
  rw [hpre, append_assoc] at hsplit
  -- the size is reached at `c`, which lies in a file that reaches to `a`
  refine h.first init c _ hsplit (by simp [hpre]) ⟨hpre ▸ hle, ?_⟩
  by_cases hin : ∃ f ∈ files, Within f c.userKey
  · obtain ⟨f, hf, hin⟩ := hin
    refine .inr ⟨f, hf, hin, a, rfl, not_le.mp fun hle => hout f hf ⟨?_, hle⟩⟩
    exact hin.1.trans (le_last_of_mem hsorted h.split (by simp [hpre]))
  · exact .inl fun f hf h => hin ⟨f, hf, h⟩

/-! ## A pick -/

section Pick

variable {sst : SstableMetadata K} {vs : VersionStorageInfo K}

/-- **WHEN A PICK SPLITS A KEY**: over a non-empty level 0 a column is always
    picked, and it is closed under user key exactly when the first cell that
    reaches the size does not lie between two overlapping level-1 files with a
    cell of its own user key behind it. -/
theorem pickColumnCompaction_closed_iff (opts : NvmCfOptions) (hwf : Level0 sst vs.level0)
    (hne : vs.level0 ≠ []) (hl1 : LevelSorted vs.level1) :
    ∃ item, (pickColumnCompaction opts sst vs).2 = some item ∧
      (ClosedUnderUserKey (itemEntries item) (readable sst (columnFiles sst vs.level0)) ↔
        ¬ KeySplit (compactionSizeStop opts.columnCompactionHaveL1SelectL0
          opts.targetFileSizeBase) vs.level1 (cellsOf sst (columnFiles sst vs.level0))) := by
  have hcol := Level0.columnFiles hwf
  obtain ⟨item, pre, a, post, hpick, -, hlast, hmem⟩ := pick_lastChosen opts hwf hne hl1
  refine ⟨item, hpick, ?_⟩
  rw [closed_iff_cells hcol hlast.eq_append hmem]
  by_cases hnone : touching (cellsOf sst (columnFiles sst vs.level0)) vs.level1 = []
  · refine iff_of_true
      (ShortestColumn.separates (hlast.alone hnone) hlast.eq_append (cellsOf_sorted hcol)) ?_
    rintro ⟨⟨f, hf, htouch⟩, -⟩
    exact absurd hnone (ne_nil_of_mem (mem_touching_iff.mpr ⟨hf, htouch⟩))
  · obtain ⟨g, hg⟩ := exists_mem_of_ne_nil _ hnone
    rw [EndsAt.separates_iff (hlast.along hnone) (cellsOf_sorted hcol), KeySplit,
      and_iff_right ⟨g, mem_touching_iff.mp hg⟩]
    simp only [mem_touching_iff, Within, and_imp]

end Pick

theorem pickColumnCompaction_closed_iff_splitVersion :
    ∃ item, (pickColumnCompaction splitOptions splitDirectory splitVersion).2 = some item ∧
      (ClosedUnderUserKey (itemEntries item)
          (readable splitDirectory (columnFiles splitDirectory splitVersion.level0)) ↔
        ¬ KeySplit 30 splitVersion.level1
          (cellsOf splitDirectory (columnFiles splitDirectory splitVersion.level0))) :=
  pickColumnCompaction_closed_iff splitOptions splitVersion_level0 (by decide)
    splitVersion_level1

/-- The pick takes version 2 of key 5 and leaves version 1 behind. -/
theorem pickColumnCompaction_splits_key :
    Level0 splitDirectory splitVersion.level0 ∧ LevelSorted splitVersion.level1 ∧
      ∃ item, (pickColumnCompaction splitOptions splitDirectory splitVersion).2 = some item ∧
        ¬ ClosedUnderUserKey (itemEntries item)
          (readable splitDirectory (columnFiles splitDirectory splitVersion.level0)) :=
  ⟨splitVersion_level0, splitVersion_level1, _, rfl, by decide⟩

end ColumnClosure
