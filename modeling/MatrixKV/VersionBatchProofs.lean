import MatrixKV.VersionBuilderProofs

/-! # Batches of edits — VersionBuilder over an NVM level 0

    `LogAndApply` and the recovery of the manifest apply many edits to one builder
    and save once.  For NVM tables a number may be deleted and added again by one
    edit after the other, and the marks of the deletions stay.

    * `Tracks` relates the builder to the level that saving after every edit would
      have given.
    * `applyEdits_eq_foldl` — saving once gives that level. -/

namespace VersionBatch

open DbFormat VersionBuilder

variable {K : Type}

/-- All edits are applied to one builder, which is saved once. -/
def applyEdits (base : List (FileMetaData K)) (edits : List (VersionEdit K)) :
    List (FileMetaData K) :=
  saveTo base (edits.foldl LevelState.apply {})

/-- The edits of an NVM level 0: they delete tables that are there, and add NVM
    tables whose numbers are absent after their deletions. -/
structure EditOK (level : List (FileMetaData K)) (edit : VersionEdit K) : Prop where
  present : ∀ n ∈ edit.deletedFiles, ∃ f ∈ level, f.number = n
  nvm : ∀ f ∈ edit.newFiles, f.isNvmLevel0 = true
  absent : ∀ f ∈ edit.newFiles, ∀ b ∈ level, f.number = b.number → b.number ∈ edit.deletedFiles

/-- Each edit is one for the level the edits before it give. -/
def EditsOK : List (FileMetaData K) → List (VersionEdit K) → Prop
  | _, [] => True
  | level, edit :: edits => EditOK level edit ∧ EditsOK (applyEdit level edit) edits

theorem editsOK_append (edits : List (VersionEdit K)) (edit : VersionEdit K)
    (level : List (FileMetaData K)) :
    EditsOK level (edits ++ [edit]) ↔ EditsOK level edits ∧ EditOK (edits.foldl applyEdit level)
      edit := by
  induction edits generalizing level with
  | nil =>
    exact and_comm
  | cons e edits ih =>
    rw [List.cons_append, EditsOK, EditsOK, ih, List.foldl_cons, and_assoc]

/-- What a level is, whatever edits built it. -/
structure LevelOK (level : List (FileMetaData K)) : Prop where
  sorted : NewestFirst level
  distinct : DistinctNumbers level

/-! ## The numbers of a level -/

def numbers (level : List (FileMetaData K)) : Set Nat := {n | ∃ f ∈ level, f.number = n}

/-- What an edit is to do with the numbers. -/
def editNumbers (ns : Set Nat) (edit : VersionEdit K) : Set Nat :=
  (ns \ {n | n ∈ edit.deletedFiles}) ∪ numbers edit.newFiles

/-- Files that can be told apart by their numbers have different numbers. -/
theorem NewestFirst.distinctNumbers {level : List (FileMetaData K)} (h : NewestFirst level)
    (hinj : ∀ a ∈ level, ∀ b ∈ level, a.number = b.number → a = b) : DistinctNumbers level := by
  refine (List.Pairwise.and_mem.mp h).imp ?_
  rintro a b ⟨ha, hb, hlt⟩ heq
  rw [hinj a ha b hb heq] at hlt
  exact lt_irrefl _ hlt

variable {base : List (FileMetaData K)}

section Step

variable {level : List (FileMetaData K)} {edit : VersionEdit K}

theorem mem_applyEdit_iff (hlevel : LevelOK level) (hedit : EditOK level edit)
    (f : FileMetaData K) : f ∈ applyEdit level edit ↔
      f ∈ lastAdded edit.newFiles ∨ (f ∈ level ∧ f.number ∉ edit.deletedFiles) :=
  (applyEdit_last edit hlevel.sorted hedit.nvm hedit.absent).2 f

/-- A table that stays is not added again. -/
theorem EditOK.not_added (hedit : EditOK level edit) {f : FileMetaData K} (hf : f ∈ level)
    (hkept : f.number ∉ edit.deletedFiles) : f.number ∉ edit.newFiles.map FileMetaData.number := by
  intro hmem
  obtain ⟨a, ha, heq⟩ := List.mem_map.mp hmem
  exact hkept (hedit.absent a ha f hf heq)

theorem distinctNumbers_lastAdded (fs : List (FileMetaData K)) :
    DistinctNumbers (lastAdded fs) := by
  induction fs with
  | nil => exact .nil
  | cons f fs ih =>
  rw [lastAdded]
  split_ifs with h
  · exact ih
  refine List.pairwise_cons.mpr ⟨?_, ih⟩
  intro g hg heq
  exact h (heq ▸ List.mem_map_of_mem ((lastAdded_sublist fs).subset hg))

theorem LevelOK.applyEdit (hlevel : LevelOK level) (hedit : EditOK level edit) :
    LevelOK (applyEdit level edit) := by
  have hsorted := (applyEdit_last edit hlevel.sorted hedit.nvm hedit.absent).1
  refine ⟨hsorted, NewestFirst.distinctNumbers hsorted ?_⟩
  -- an added table has another number than the ones that stay
  have hcross : ∀ a ∈ lastAdded edit.newFiles, ∀ b ∈ level, b.number ∉ edit.deletedFiles →
      a.number ≠ b.number := by
    intro a ha b hb hkept heq
    refine hedit.not_added hb hkept ?_
    rw [← heq]
    exact List.mem_map_of_mem ((lastAdded_sublist _).subset ha)
  intro a ha b hb heq
  rcases (mem_applyEdit_iff hlevel hedit a).mp ha with ha | ⟨ha, hka⟩
  · rcases (mem_applyEdit_iff hlevel hedit b).mp hb with hb | ⟨hb, hkb⟩
    · exact (distinctNumbers_lastAdded _).eq_of_number ha hb heq
    · exact absurd heq (hcross a ha b hb hkb)
  · rcases (mem_applyEdit_iff hlevel hedit b).mp hb with hb | ⟨hb, -⟩
    · exact absurd heq.symm (hcross b hb a ha hka)
    · exact hlevel.distinct.eq_of_number ha hb heq

theorem numbers_applyEdit (hlevel : LevelOK level) (hedit : EditOK level edit) :
    numbers (applyEdit level edit) = editNumbers (numbers level) edit := by
  ext n
  constructor
  · rintro ⟨f, hf, rfl⟩
    rcases (mem_applyEdit_iff hlevel hedit f).mp hf with hf | ⟨hf, hkept⟩
    · exact .inr ⟨f, (lastAdded_sublist _).subset hf, rfl⟩
    · exact .inl ⟨⟨f, hf, rfl⟩, hkept⟩
  rintro (⟨⟨f, hf, rfl⟩, hkept⟩ | ⟨f, hf, rfl⟩)
  · exact ⟨f, (mem_applyEdit_iff hlevel hedit f).mpr (.inr ⟨hf, hkept⟩), rfl⟩
  · obtain ⟨g, hg, heq⟩ := List.mem_map.mp
      ((map_number_lastAdded edit.newFiles f.number).mpr (List.mem_map_of_mem hf))
    exact ⟨g, (mem_applyEdit_iff hlevel hedit g).mpr (.inl hg), heq⟩

/-! ## One builder for many edits -/

/-- The builder `st` on `base` stands for the level `level`. -/
structure Tracks (base : List (FileMetaData K)) (st : LevelState K)
    (level : List (FileMetaData K)) : Prop where
  hides : Hides st base
  mem : ∀ f, f ∈ level ↔ f ∈ st.addedFiles ∨ (f ∈ base ∧ f.number ∉ st.deletedFiles)

theorem tracks_new (base : List (FileMetaData K)) : Tracks base {} base where
  hides := ⟨nofun, .nil, nofun⟩
  mem f := by simp

/-- Saving gives the level. -/
theorem Tracks.saveTo {st : LevelState K} (h : Tracks base st level) (hbase : NewestFirst base)
    (hlevel : NewestFirst level) : saveTo base st = level := by
  obtain ⟨hsorted, hmem⟩ := saveTo_spec hbase h.hides
  refine hsorted.ext hlevel ?_
  intro f
  rw [hmem, h.mem]

/-- **STEP**: one more edit in the builder is one more edit of the level. -/
theorem Tracks.apply {st : LevelState K} (h : Tracks base st level) (hlevel : LevelOK level)
    (hedit : EditOK level edit) :
    Tracks base (st.apply edit) (VersionBuilder.applyEdit level edit) := by
  obtain ⟨hdel, hadd, hdist⟩ := apply_spec st edit hedit.nvm
  refine ⟨⟨?_, hdist h.hides.distinct, ?_⟩, ?_⟩
  · intro f hf
    rcases (hadd f).mp hf with hf | ⟨hf, -⟩
    · exact hedit.nvm f ((lastAdded_sublist _).subset hf)
    · exact h.hides.nvm f hf
  · intro a ha b hb heq
    rw [hdel]
    rcases (hadd a).mp ha with ha | ⟨ha, -⟩
    · -- a base file of this number was hidden before, or the edit deletes it
      by_cases hb' : b.number ∈ st.deletedFiles
      · exact .inr hb'
      · have hbl : b ∈ level := (h.mem b).mpr (.inr ⟨hb, hb'⟩)
        exact .inl (hedit.absent a ((lastAdded_sublist _).subset ha) b hbl heq)
    · exact .inr (h.hides.hidden a ha b hb heq)
  · intro f
    rw [mem_applyEdit_iff hlevel hedit, hadd, hdel]
    constructor
    · rintro (hf | ⟨hf, hkept⟩)
      · exact .inl (.inl hf)
      · rcases (h.mem f).mp hf with hf' | ⟨hf', hunmarked⟩
        · exact .inl (.inr ⟨hf', hkept, hedit.not_added hf hkept⟩)
        · exact .inr ⟨hf', not_or.mpr ⟨hkept, hunmarked⟩⟩
    · rintro ((hf | ⟨hf, hkept, -⟩) | ⟨hf, hunmarked⟩)
      · exact .inl hf
      · exact .inr ⟨(h.mem f).mpr (.inl hf), hkept⟩
      · obtain ⟨hkept, hunmarked⟩ := not_or.mp hunmarked
        exact .inr ⟨(h.mem f).mpr (.inr ⟨hf, hunmarked⟩), hkept⟩

end Step

/-- The edits one by one keep the level, and the builder stands for it. -/
theorem tracks_foldl (edits : List (VersionEdit K)) :
    ∀ (st : LevelState K) (level : List (FileMetaData K)), Tracks base st level →
      LevelOK level → EditsOK level edits →
      Tracks base (edits.foldl LevelState.apply st) (edits.foldl applyEdit level) ∧
      LevelOK (edits.foldl applyEdit level) ∧
      numbers (edits.foldl applyEdit level) = edits.foldl editNumbers (numbers level) := by
  induction edits with
  | nil =>
    intro st level h hlevel _
    exact ⟨h, hlevel, rfl⟩
  | cons edit edits ih =>
  rintro st level h hlevel ⟨hedit, hedits⟩
  have hnext := ih _ _ (h.apply hlevel hedit) (hlevel.applyEdit hedit) hedits
  rw [numbers_applyEdit hlevel hedit] at hnext
  exact hnext

/-- **BATCHES**: saving once after all edits gives what saving after every edit
    gives.  The level is sorted, no number stands twice in it, and it has the
    numbers the edits leave. -/
theorem applyEdits_eq_foldl {base : List (FileMetaData K)} {edits : List (VersionEdit K)}
    (hbase : LevelOK base) (hedits : EditsOK base edits) :
    applyEdits base edits = edits.foldl applyEdit base ∧
    NewestFirst (applyEdits base edits) ∧ DistinctNumbers (applyEdits base edits) ∧
    numbers (applyEdits base edits) = edits.foldl editNumbers (numbers base) := by
  obtain ⟨htracks, hlevel, hnumbers⟩ :=
    tracks_foldl edits {} base (tracks_new base) hbase hedits
  have heq : applyEdits base edits = edits.foldl applyEdit base :=
    htracks.saveTo hbase.sorted hlevel.sorted
  rw [heq]
  exact ⟨rfl, hlevel.sorted, hlevel.distinct, hnumbers⟩

/-- A table of four keys whose first `first` were compacted away. -/
def rowFrom (number seqno first : Nat) : FileMetaData Nat :=
  { number := number, fileSize := 4 - first, smallest := ⟨first, seqno, .value⟩
    largest := ⟨3, seqno, .value⟩, smallestSeqno := seqno, largestSeqno := seqno
    isNvmLevel0 := true, firstKeyIndex := first, keysNum := 4 }

/-- Two column compactions advance the table 7, and a flush comes between them. -/
def rowEdits : List (VersionEdit Nat) :=
  [{ deletedFiles := [7], newFiles := [rowFrom 7 5 1] },
   { newFiles := [rowFrom 8 6 0] },
   { deletedFiles := [7], newFiles := [rowFrom 7 5 2] }]

theorem applyEdits_eq_foldl_rowEdits :
    applyEdits [rowFrom 7 5 0] rowEdits = [rowFrom 8 6 0, rowFrom 7 5 2] := by
  have hbase : LevelOK [rowFrom 7 5 0] :=
    ⟨List.pairwise_singleton _ _, List.pairwise_singleton _ _⟩
  have hedits : EditsOK [rowFrom 7 5 0] rowEdits :=
    ⟨⟨by decide, by decide, by decide⟩, ⟨by decide, by decide, by decide⟩,
      ⟨by decide, by decide, by decide⟩, trivial⟩
  rw [(applyEdits_eq_foldl hbase hedits).1]
  rfl

end VersionBatch
