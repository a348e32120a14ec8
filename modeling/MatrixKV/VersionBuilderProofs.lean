import MatrixKV.DbFormatProofs

/-! # Building a version's level 0 — db/version_builder.cc

    A version edit deletes and adds files; the builder collects edits (`apply`)
    and merges the added files into the base version's level 0 (`saveTo`), newest
    first.  An NVM table may be deleted and added under the same number in one
    edit, with another `first_key_index`: the deletion then only hides the base
    file.

    * `seqRank` is the linear order behind `newestFirstBySeqNo`.
    * `applyEdit_spec` — what an edit of NVM tables makes of a sorted base. -/

namespace VersionBuilder

open List DbFormat

variable {K : Type}

def newestFirstBySeqNo (a b : FileMetaData K) : Bool :=
  if a.largestSeqno ≠ b.largestSeqno then a.largestSeqno > b.largestSeqno
  else if a.smallestSeqno ≠ b.smallestSeqno then a.smallestSeqno > b.smallestSeqno
  else a.number > b.number

/-- The level-0 part of a `VersionEdit`. -/
structure VersionEdit (K : Type) where
  deletedFiles : List Nat := []
  newFiles : List (FileMetaData K) := []
  deriving DecidableEq, Repr

/-- What the builder has collected for level 0: `deleted_files` and the map
    `added_files` from number to file. -/
structure LevelState (K : Type) where
  deletedFiles : List Nat := []
  addedFiles : List (FileMetaData K) := []
  deriving DecidableEq, Repr

def LevelState.deleteFile (st : LevelState K) (number : Nat) : LevelState K :=
  { deletedFiles := number :: st.deletedFiles
    addedFiles := st.addedFiles.filter (fun f => f.number ≠ number) }

def LevelState.addFile (st : LevelState K) (f : FileMetaData K) : LevelState K :=
  { -- an NVM table may have been deleted to be added again: the mark stays
    deletedFiles :=
      if f.isNvmLevel0 then st.deletedFiles else st.deletedFiles.filter (fun n => n ≠ f.number)
    addedFiles := f :: st.addedFiles.filter (fun g => g.number ≠ f.number) }

/-- `Apply`: first the deletions, then the additions. -/
def LevelState.apply (st : LevelState K) (edit : VersionEdit K) : LevelState K :=
  edit.newFiles.foldl LevelState.addFile (edit.deletedFiles.foldl LevelState.deleteFile st)

/-- `MaybeAddFile` for a file of the base. -/
def keepBase (st : LevelState K) (f : FileMetaData K) : Bool := f.number ∉ st.deletedFiles

/-- `MaybeAddFile` for an added file of an NVM column family. -/
def keepAdded (st : LevelState K) (f : FileMetaData K) : Bool :=
  ¬ (f.number ∈ st.deletedFiles ∧ f.isNvmLevel0 = false)

/-- The loop of `SaveTo`: before each base file come the added files that are
    newer. -/
def saveLoop (st : LevelState K) :
    List (FileMetaData K) → List (FileMetaData K) → List (FileMetaData K)
  | added, [] => added.filter (keepAdded st)
  | added, b :: base =>
    (added.takeWhile (fun a => newestFirstBySeqNo a b)).filter (keepAdded st) ++
      ((if keepBase st b then [b] else []) ++
        saveLoop st (added.dropWhile (fun a => newestFirstBySeqNo a b)) base)

/-- `SaveTo` at level 0. -/
def saveTo (base : List (FileMetaData K)) (st : LevelState K) : List (FileMetaData K) :=
  saveLoop st (st.addedFiles.insertionSort (fun a b => newestFirstBySeqNo b a = false)) base

/-! ## The order of level 0 -/

/-- What the comparison goes by. -/
def seqRank (f : FileMetaData K) : Nat ×ₗ Nat ×ₗ Nat :=
  toLex (f.largestSeqno, toLex (f.smallestSeqno, f.number))

theorem newestFirst_iff (a b : FileMetaData K) :
    newestFirstBySeqNo a b = true ↔ seqRank b < seqRank a := by
  simp only [seqRank, Prod.Lex.toLex_lt_toLex, newestFirstBySeqNo]
  by_cases hl : a.largestSeqno = b.largestSeqno
  · by_cases hs : a.smallestSeqno = b.smallestSeqno
    · simp [hl, hs]
    · have hs' : b.smallestSeqno ≠ a.smallestSeqno := Ne.symm hs
      simp [hl, hs, hs']
  · have hl' : b.largestSeqno ≠ a.largestSeqno := Ne.symm hl
    simp [hl, hl']

theorem newestFirst_eq_false_iff (a b : FileMetaData K) :
    newestFirstBySeqNo a b = false ↔ seqRank a ≤ seqRank b := by
  rw [← not_lt, ← newestFirst_iff, Bool.not_eq_true]

variable {a b : FileMetaData K}

/-- Files of one rank have one number. -/
theorem number_eq_of_seqRank_eq (h : seqRank a = seqRank b) : a.number = b.number :=
  congrArg (fun x => (ofLex (ofLex x).2).2) h

/-- Newest first, without ties. -/
def NewestFirst (l0 : List (FileMetaData K)) : Prop :=
  l0.Pairwise (fun a b => seqRank b < seqRank a)

/-- Two sorted lists with the same members are one list. -/
theorem NewestFirst.ext {l l' : List (FileMetaData K)} (h : NewestFirst l)
    (h' : NewestFirst l') (hmem : ∀ f, f ∈ l ↔ f ∈ l') : l = l' := by
  have hnd : ∀ {k : List (FileMetaData K)}, NewestFirst k → k.Nodup := by
    intro k hk
    refine hk.imp ?_
    intro a b hab heq
    rw [heq] at hab
    exact lt_irrefl _ hab
  have hperm : l.Perm l' := (perm_ext_iff_of_nodup (hnd h) (hnd h')).mpr hmem
  refine hperm.eq_of_pairwise ?_ h h'
  intro a b _ _ hab hba
  exact absurd hab (lt_asymm hba)

/-! ## Saving -/

theorem mem_saveLoop_iff (st : LevelState K) (f : FileMetaData K)
    (base added : List (FileMetaData K)) :
    f ∈ saveLoop st added base ↔ (f ∈ added ∧ keepAdded st f = true) ∨
      (f ∈ base ∧ keepBase st f = true) := by
  induction base generalizing added with
  | nil =>
    simp [saveLoop]
  | cons b base ih =>
  have hsplit : f ∈ added ↔ f ∈ added.takeWhile (fun a => newestFirstBySeqNo a b) ∨
      f ∈ added.dropWhile (fun a => newestFirstBySeqNo a b) := by
    rw [← mem_append, takeWhile_append_dropWhile]
  have hb : f ∈ (if keepBase st b then [b] else []) ↔ f = b ∧ keepBase st f = true := by
    split_ifs with h
    · rw [mem_singleton]
      exact ⟨fun e => ⟨e, e ▸ h⟩, And.left⟩
    · exact ⟨nofun, fun e => absurd (e.1 ▸ e.2) h⟩
  rw [saveLoop, mem_append, mem_append, mem_filter, ih, hb, hsplit,
    mem_cons, or_and_right, or_and_right]
  constructor
  · rintro (h | h | h | h)
    · exact .inl (.inl h)
    · exact .inr (.inl h)
    · exact .inl (.inr h)
    · exact .inr (.inr h)
  · rintro ((h | h) | h | h)
    · exact .inl h
    · exact .inr (.inr (.inl h))
    · exact .inr (.inl h)
    · exact .inr (.inr (.inr h))

/-- The added files behind the cut are not newer than the base file. -/
theorem not_newer_of_mem_dropWhile {added : List (FileMetaData K)} (hadded : NewestFirst added)
    (h : a ∈ added.dropWhile (fun x => newestFirstBySeqNo x b)) : seqRank a ≤ seqRank b := by
  have hsub : (added.dropWhile (fun x => newestFirstBySeqNo x b)).Sublist added :=
    (dropWhile_suffix _).sublist
  cases hd : added.dropWhile (fun x => newestFirstBySeqNo x b) with
  | nil =>
    rw [hd] at h
    exact nomatch h
  | cons c cs =>
  have hne : added.dropWhile (fun x => newestFirstBySeqNo x b) ≠ [] := by
    rw [hd]
    exact cons_ne_nil _ _
  have hhead := head_dropWhile_not (fun x => newestFirstBySeqNo x b) hne
  simp only [hd, head_cons] at hhead
  have hc : seqRank c ≤ seqRank b := (newestFirst_eq_false_iff c b).mp hhead
  rw [hd] at h hsub
  rcases mem_cons.mp h with rfl | h
  · exact hc
  · have hpair := hadded.sublist hsub
    exact le_trans ((pairwise_cons.mp hpair).1 a h).le hc

/-- Merging sorted files into a sorted base gives a sorted level, when an added
    file only shares its rank with a base file that is deleted. -/
theorem saveLoop_sorted (st : LevelState K) (base added : List (FileMetaData K))
    (hbase : NewestFirst base) (hadded : NewestFirst added)
    (hties : ∀ a ∈ added, ∀ b ∈ base, keepBase st b = true → seqRank a ≠ seqRank b) :
    NewestFirst (saveLoop st added base) := by
  induction base generalizing added with
  | nil =>
    exact hadded.filter _
  | cons b base ih =>
  obtain ⟨hb, hbase'⟩ := pairwise_cons.mp hbase
  have htake : ∀ a ∈ added.takeWhile (fun x => newestFirstBySeqNo x b),
      a ∈ added ∧ seqRank b < seqRank a := by
    intro a ha
    refine ⟨(takeWhile_sublist _).subset ha, (newestFirst_iff a b).mp ?_⟩
    have hnewer := mem_takeWhile_imp ha
    exact hnewer
  have hdrop : ∀ a ∈ added.dropWhile (fun x => newestFirstBySeqNo x b), a ∈ added :=
    fun a ha => (dropWhile_suffix _).subset ha
  have hrest : NewestFirst
      (saveLoop st (added.dropWhile (fun x => newestFirstBySeqNo x b)) base) := by
    refine ih _ hbase' (hadded.sublist (dropWhile_suffix _).sublist) ?_
    intro a ha c hc
    exact hties a (hdrop a ha) c (.tail b hc)
  have hsplit := hadded
  rw [NewestFirst, ← takeWhile_append_dropWhile (p := fun x => newestFirstBySeqNo x b)
    (l := added)] at hsplit
  obtain ⟨hpre, -, hcross⟩ := pairwise_append.mp hsplit
  rw [saveLoop]
  refine pairwise_append.mpr ⟨hpre.filter _, ?_, ?_⟩
  · split_ifs with hk
    · refine pairwise_cons.mpr ⟨?_, hrest⟩
      intro x hx
      rcases (mem_saveLoop_iff st x base _).mp hx with ⟨hx, -⟩ | ⟨hx, -⟩
      · refine lt_of_le_of_ne (not_newer_of_mem_dropWhile hadded hx) ?_
        exact hties x (hdrop x hx) b (.head _) hk
      · exact hb x hx
    · exact hrest
  intro a ha x hx
  have ha' := (mem_filter.mp ha).1
  have hab := (htake a ha').2
  rcases mem_append.mp hx with hx | hx
  · split_ifs at hx with hk
    · rw [mem_singleton] at hx
      exact hx ▸ hab
    · exact nomatch hx
  · rcases (mem_saveLoop_iff st x base _).mp hx with ⟨hx, -⟩ | ⟨hx, -⟩
    · exact hcross a ha' x hx
    · exact (hb x hx).trans hab

/-! ## Applying an edit -/

/-- The numbers of an edit's new files differ. -/
def DistinctNumbers (fs : List (FileMetaData K)) : Prop :=
  fs.Pairwise (fun a b => a.number ≠ b.number)

variable {fs : List (FileMetaData K)}

theorem DistinctNumbers.eq_of_number (h : DistinctNumbers fs) (ha : a ∈ fs) (hb : b ∈ fs)
    (heq : a.number = b.number) : a = b :=
  inj_on_of_nodup_map (pairwise_map.mpr h) ha hb heq

/-- What is left when `f` is erased has other numbers. -/
theorem DistinctNumbers.ne_of_mem_erase [DecidableEq K] (h : DistinctNumbers fs)
    {f g : FileMetaData K} (hf : f ∈ fs) (hg : g ∈ fs.erase f) : g.number ≠ f.number := by
  have hnodup : fs.Nodup := h.imp (fun hne => mt (congrArg _) hne)
  obtain ⟨hne, hg⟩ := hnodup.mem_erase_iff.mp hg
  exact fun heq => hne (h.eq_of_number hg hf heq)

theorem DistinctNumbers.filter (h : DistinctNumbers fs) (p : FileMetaData K → Bool) :
    DistinctNumbers (fs.filter p) :=
  .sublist filter_sublist h

/-- The additions that last: a later one of the same number replaces an earlier
    one. -/
def lastAdded : List (FileMetaData K) → List (FileMetaData K)
  | [] => []
  | f :: fs => if f.number ∈ fs.map FileMetaData.number then lastAdded fs else f :: lastAdded fs

theorem lastAdded_sublist (fs : List (FileMetaData K)) : (lastAdded fs).Sublist fs := by
  induction fs with
  | nil => exact .slnil
  | cons f fs ih =>
  rw [lastAdded]
  split_ifs with h
  · exact ih.cons f
  · exact ih.cons_cons f

theorem lastAdded_eq_self (h : DistinctNumbers fs) : lastAdded fs = fs := by
  induction fs with
  | nil => rfl
  | cons f fs ih =>
  obtain ⟨hf, hfs⟩ := pairwise_cons.mp h
  have hnot : f.number ∉ fs.map FileMetaData.number := by
    intro hmem
    obtain ⟨g, hg, heq⟩ := mem_map.mp hmem
    exact hf g hg heq.symm
  rw [lastAdded, if_neg hnot, ih hfs]

/-- No number is lost. -/
theorem map_number_lastAdded (fs : List (FileMetaData K)) (n : Nat) :
    n ∈ (lastAdded fs).map FileMetaData.number ↔ n ∈ fs.map FileMetaData.number := by
  induction fs with
  | nil => exact Iff.rfl
  | cons f fs ih =>
  rw [lastAdded]
  split_ifs with h
  · rw [ih, map_cons, mem_cons]
    refine ⟨.inr, ?_⟩
    rintro (rfl | hn)
    · exact h
    · exact hn
  · rw [map_cons, map_cons, mem_cons, mem_cons, ih]

theorem deleteFiles_spec (ns : List Nat) (st : LevelState K) :
    (∀ f, f ∈ (ns.foldl LevelState.deleteFile st).addedFiles ↔ f ∈ st.addedFiles ∧ f.number ∉ ns) ∧
    (∀ n, n ∈ (ns.foldl LevelState.deleteFile st).deletedFiles ↔ n ∈ ns ∨ n ∈ st.deletedFiles) ∧
    (DistinctNumbers st.addedFiles →
      DistinctNumbers (ns.foldl LevelState.deleteFile st).addedFiles) := by
  induction ns generalizing st with
  | nil =>
    exact ⟨fun f => by simp, fun n => by simp, id⟩
  | cons m ns ih =>
  obtain ⟨h1, h2, h3⟩ := ih (st.deleteFile m)
  refine ⟨?_, ?_, fun h => h3 (h.filter _)⟩
  · intro f
    rw [foldl_cons, h1]
    simp only [LevelState.deleteFile, mem_filter, decide_eq_true_eq, mem_cons,
      not_or, and_assoc, ne_eq]
  · intro n
    rw [foldl_cons, h2]
    simp only [LevelState.deleteFile, mem_cons, or_left_comm, or_assoc]

/-- Adding NVM files keeps the deletion marks. -/
theorem addFiles_spec (fs : List (FileMetaData K)) (st : LevelState K)
    (hnvm : ∀ f ∈ fs, f.isNvmLevel0 = true) :
    (fs.foldl LevelState.addFile st).deletedFiles = st.deletedFiles ∧
    (∀ f, f ∈ (fs.foldl LevelState.addFile st).addedFiles ↔
      f ∈ lastAdded fs ∨ (f ∈ st.addedFiles ∧ f.number ∉ fs.map FileMetaData.number)) ∧
    (DistinctNumbers st.addedFiles →
      DistinctNumbers (fs.foldl LevelState.addFile st).addedFiles) := by
  induction fs generalizing st with
  | nil =>
    exact ⟨rfl, fun f => by simp [lastAdded], id⟩
  | cons a fs ih =>
  have hdel : (st.addFile a).deletedFiles = st.deletedFiles := by
    simp only [LevelState.addFile, hnvm a (.head _), if_true]
  obtain ⟨h1, h2, h3⟩ := ih (st.addFile a) (fun g hg => hnvm g (.tail a hg))
  refine ⟨h1.trans hdel, ?_, ?_⟩
  · intro f
    rw [foldl_cons, h2, lastAdded]
    split_ifs with hlater
    · simp only [LevelState.addFile, mem_cons, mem_filter, decide_eq_true_eq, map_cons, not_or]
      constructor
      · rintro (h | ⟨rfl | ⟨h, hne⟩, hnot⟩)
        · exact .inl h
        · exact absurd hlater hnot
        · exact .inr ⟨h, hne, hnot⟩
      · rintro (h | ⟨h, hne, hnot⟩)
        · exact .inl h
        · exact .inr ⟨.inr ⟨h, hne⟩, hnot⟩
    simp only [LevelState.addFile, mem_cons, mem_filter, decide_eq_true_eq, map_cons, not_or]
    constructor
    · rintro (h | ⟨rfl | ⟨h, hne⟩, hnot⟩)
      · exact .inl (.inr h)
      · exact .inl (.inl rfl)
      · exact .inr ⟨h, hne, hnot⟩
    · rintro ((rfl | h) | ⟨h, hne, hnot⟩)
      · exact .inr ⟨.inl rfl, hlater⟩
      · exact .inl h
      · exact .inr ⟨.inr ⟨h, hne⟩, hnot⟩
  · intro hdist
    refine h3 (pairwise_cons.mpr ⟨?_, hdist.filter _⟩)
    intro g hg
    have hne := (mem_filter.mp hg).2
    exact fun heq => of_decide_eq_true hne heq.symm

/-- **ONE MORE EDIT** in the builder: its deletions are marked, its additions come
    in the place of what the builder had of these numbers. -/
theorem apply_spec (st : LevelState K) (edit : VersionEdit K)
    (hnvm : ∀ f ∈ edit.newFiles, f.isNvmLevel0 = true) :
    (∀ n, n ∈ (st.apply edit).deletedFiles ↔ n ∈ edit.deletedFiles ∨ n ∈ st.deletedFiles) ∧
    (∀ f, f ∈ (st.apply edit).addedFiles ↔ f ∈ lastAdded edit.newFiles ∨
      (f ∈ st.addedFiles ∧ f.number ∉ edit.deletedFiles ∧
        f.number ∉ edit.newFiles.map FileMetaData.number)) ∧
    (DistinctNumbers st.addedFiles → DistinctNumbers (st.apply edit).addedFiles) := by
  obtain ⟨hd1, hd2, hd3⟩ := deleteFiles_spec edit.deletedFiles st
  obtain ⟨ha1, ha2, ha3⟩ := addFiles_spec edit.newFiles
    (edit.deletedFiles.foldl LevelState.deleteFile st) hnvm
  refine ⟨?_, ?_, fun h => ha3 (hd3 h)⟩
  · intro n
    rw [LevelState.apply, ha1, hd2]
  · intro f
    rw [LevelState.apply, ha2, hd1, and_assoc]

/-- Sorting files of different numbers orders them strictly. -/
theorem newestFirst_insertionSort (h : DistinctNumbers fs) :
    NewestFirst (fs.insertionSort (fun a b => newestFirstBySeqNo b a = false)) := by
  have htotal : Std.Total (fun a b : FileMetaData K => newestFirstBySeqNo b a = false) :=
    ⟨fun a b => by
      rw [newestFirst_eq_false_iff, newestFirst_eq_false_iff]
      exact le_total _ _⟩
  have htrans : IsTrans (FileMetaData K) (fun a b => newestFirstBySeqNo b a = false) :=
    ⟨fun a b c hab hbc => by
      rw [newestFirst_eq_false_iff] at hab hbc ⊢
      exact hbc.trans hab⟩
  have hle := pairwise_insertionSort (fun a b => newestFirstBySeqNo b a = false) fs
  have hne : DistinctNumbers (fs.insertionSort (fun a b => newestFirstBySeqNo b a = false)) :=
    (perm_insertionSort _ _).symm.pairwise h (fun hab => hab.symm)
  refine (hle.and hne).imp ?_
  intro a b hab
  refine lt_of_le_of_ne ((newestFirst_eq_false_iff b a).mp hab.1) ?_
  intro heq
  exact hab.2 (number_eq_of_seqRank_eq heq).symm

/-- What the builder's additions must be, for a base: NVM tables of different
    numbers, that hide what the base has of them. -/
structure Hides (st : LevelState K) (base : List (FileMetaData K)) : Prop where
  nvm : ∀ f ∈ st.addedFiles, f.isNvmLevel0 = true
  distinct : DistinctNumbers st.addedFiles
  hidden : ∀ a ∈ st.addedFiles, ∀ b ∈ base, a.number = b.number → b.number ∈ st.deletedFiles

variable {base : List (FileMetaData K)}

/-- **SAVING** merges the added files and the base files without a mark. -/
theorem saveTo_spec {st : LevelState K} (hbase : NewestFirst base) (h : Hides st base) :
    NewestFirst (saveTo base st) ∧
    ∀ f, f ∈ saveTo base st ↔ f ∈ st.addedFiles ∨ (f ∈ base ∧ f.number ∉ st.deletedFiles) := by
  have hkeep : ∀ f ∈ st.addedFiles, keepAdded st f = true := by
    intro f hf
    simp [keepAdded, h.nvm f hf]
  have hbaseKeep : ∀ f, keepBase st f = true ↔ f.number ∉ st.deletedFiles := by
    intro f
    simp [keepBase]
  constructor
  · refine saveLoop_sorted _ _ _ hbase (newestFirst_insertionSort h.distinct) ?_
    intro a ha b hb hk heq
    have ha' := (mem_insertionSort _).mp ha
    exact (hbaseKeep b).mp hk (h.hidden a ha' b hb (number_eq_of_seqRank_eq heq))
  · intro f
    rw [saveTo, mem_saveLoop_iff, mem_insertionSort, hbaseKeep, and_iff_left_of_imp (hkeep f)]

/-- The level after one edit on `base`. -/
def applyEdit (base : List (FileMetaData K)) (edit : VersionEdit K) : List (FileMetaData K) :=
  saveTo base (LevelState.apply {} edit)

section

variable (edit : VersionEdit K) (hbase : NewestFirst base) (hnvm : ∀ f ∈ edit.newFiles,
  f.isNvmLevel0 = true)
include hbase hnvm

/-- One edit of NVM tables that adds a listed number only if it deletes it. -/
theorem applyEdit_last
    (hnew : ∀ f ∈ edit.newFiles, ∀ b ∈ base, f.number = b.number → b.number ∈ edit.deletedFiles) :
    NewestFirst (applyEdit base edit) ∧
    ∀ f, f ∈ applyEdit base edit ↔
      f ∈ lastAdded edit.newFiles ∨ (f ∈ base ∧ f.number ∉ edit.deletedFiles) := by
  obtain ⟨hdel, hadd, hdist⟩ := apply_spec {} edit hnvm
  have hdel' : ∀ n, n ∈ (LevelState.apply {} edit).deletedFiles ↔ n ∈ edit.deletedFiles := by
    intro n
    rw [hdel]
    exact or_iff_left (not_mem_nil)
  have hadd' : ∀ f, f ∈ (LevelState.apply {} edit).addedFiles ↔ f ∈ lastAdded edit.newFiles := by
    intro f
    rw [hadd]
    exact or_iff_left (fun h => not_mem_nil h.1)
  have hmem : ∀ f ∈ (LevelState.apply {} edit).addedFiles, f ∈ edit.newFiles :=
    fun f hf => (lastAdded_sublist _).subset ((hadd' f).mp hf)
  have hhides : Hides (LevelState.apply {} edit) base :=
    ⟨fun f hf => hnvm f (hmem f hf), hdist .nil,
      fun a ha b hb heq => (hdel' _).mpr (hnew a (hmem a ha) b hb heq)⟩
  obtain ⟨hsorted, hsave⟩ := saveTo_spec hbase hhides
  refine ⟨hsorted, ?_⟩
  intro f
  rw [applyEdit, hsave, hadd', hdel']

/-- **ONE EDIT** of NVM tables: from a sorted base and an edit that adds a listed
    number only if it deletes it, the new level is sorted, and holds the added
    files and the base files that were not deleted. -/
theorem applyEdit_spec (hdist : DistinctNumbers edit.newFiles)
    (hnew : ∀ f ∈ edit.newFiles, ∀ b ∈ base, f.number = b.number → b.number ∈ edit.deletedFiles) :
    NewestFirst (applyEdit base edit) ∧
    ∀ f, f ∈ applyEdit base edit ↔
      f ∈ edit.newFiles ∨ (f ∈ base ∧ f.number ∉ edit.deletedFiles) := by
  have h := applyEdit_last edit hbase hnvm hnew
  rw [lastAdded_eq_self hdist] at h
  exact h

end

/-- Numbers that name one file each do so after the edit. -/
theorem applyEdit_distinct {edit : VersionEdit K} (hmem : ∀ f, f ∈ applyEdit base edit ↔ f ∈
      edit.newFiles ∨ (f ∈ base ∧ f.number ∉ edit.deletedFiles))
    (hdist : DistinctNumbers edit.newFiles)
    (hnew : ∀ f ∈ edit.newFiles, ∀ b ∈ base, f.number = b.number → b.number ∈ edit.deletedFiles)
    (hbase : ∀ f ∈ base, ∀ g ∈ base, f.number = g.number → f = g) :
    ∀ f ∈ applyEdit base edit, ∀ g ∈ applyEdit base edit, f.number = g.number → f = g := by
  intro f hf g hg heq
  rcases (hmem f).mp hf with hf | ⟨hf, hfd⟩ <;> rcases (hmem g).mp hg with hg | ⟨hg, hgd⟩
  · exact hdist.eq_of_number hf hg heq
  · exact absurd (hnew f hf g hg heq) hgd
  · exact absurd (hnew g hg f hf heq.symm) hfd
  · exact hbase f hf g hg heq

/-- An edit that adds one file of a number that is not listed. -/
theorem applyEdit_single {f : FileMetaData K} (hbase : NewestFirst base)
    (hnvm : f.isNvmLevel0 = true) (hfresh : ∀ b ∈ base, f.number ≠ b.number) :
    NewestFirst (applyEdit base { newFiles := [f] }) ∧
    ∀ g, g ∈ applyEdit base { newFiles := [f] } ↔ g = f ∨ g ∈ base := by
  obtain ⟨hsorted, hmem⟩ := applyEdit_spec { newFiles := [f] } hbase
    (by
      intro g hg
      rw [mem_singleton.mp hg]
      exact hnvm)
    (pairwise_singleton _ _)
    (by
      intro g hg b hb heq
      rw [mem_singleton.mp hg] at heq
      exact absurd heq (hfresh b hb))
  refine ⟨hsorted, fun g => ?_⟩
  rw [hmem, mem_singleton]
  exact or_congr_right (and_iff_left not_mem_nil)

/-- A newer file with a fresh number goes to the front. -/
theorem applyEdit_newest {f : FileMetaData K} {l0 : List (FileMetaData K)}
    (hsorted : NewestFirst (f :: l0)) (hnvm : f.isNvmLevel0 = true)
    (hfresh : f.number ∉ l0.map FileMetaData.number) :
    applyEdit l0 { newFiles := [f] } = f :: l0 := by
  obtain ⟨hnew, hmem⟩ := applyEdit_single (pairwise_cons.mp hsorted).2 hnvm
    (fun b hb heq => hfresh (heq ▸ mem_map_of_mem hb))
  exact NewestFirst.ext hnew hsorted (fun g => (hmem g).trans mem_cons.symm)

/-- An empty edit changes nothing. -/
theorem applyEdit_empty {l0 : List (FileMetaData K)} (hsorted : NewestFirst l0) :
    applyEdit l0 {} = l0 := by
  obtain ⟨hnew, hmem⟩ := applyEdit_spec {} hsorted nofun .nil
    nofun
  refine NewestFirst.ext hnew hsorted ?_
  intro g
  rw [hmem, or_iff_right not_mem_nil]
  exact and_iff_left not_mem_nil

theorem seqRank_lt_of_largestSeqno (h : a.largestSeqno < b.largestSeqno) :
    seqRank a < seqRank b := by
  rw [seqRank, seqRank, Prod.Lex.toLex_lt_toLex]
  exact .inl h

end VersionBuilder
